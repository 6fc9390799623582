import ServingSim.Timing.FoldLabels

/-
  The rank order of a folded histogram
  (`timing::routing::fold_layerwise_expert_counts`, `timing::expert_demand`).

  Every layer's ranks are ordered by active experts and then rows before the layers
  are averaged, and the consumers of the fold take its first rank for the one with the
  most active experts. The average is rounded after that. A place that some layers use
  and whose average is below one stays active only if its remainder is among the
  largest, so a rank can lose active experts to the rounding that a later rank keeps.

  What is proved:
    1. `foldLayerwise_order_fails` — three layers after which the second rank has
       more active experts than the first.
    2. `foldLayerwise_order` — neighbouring ranks whose summed counts are far enough apart,
       or place by place in order, stay in order; some that are not do not.
-/

namespace ServingSim

open LargestRemainder

/-- The ranks of a histogram stand in non-increasing order of active experts and rows. -/
def RanksDescend (expertsPerRank : Nat) (counts : List Nat) : Prop :=
  (chunksExact expertsPerRank counts).Pairwise fun left right =>
    activeExperts right < activeExperts left ∨
      (activeExperts right = activeExperts left ∧ right.sum ≤ left.sum)

instance (expertsPerRank : Nat) (counts : List Nat) :
    Decidable (RanksDescend expertsPerRank counts) := by
  unfold RanksDescend
  infer_instance

/-! ## The layers before averaging -/

/-- A layer in order: each rank's experts by count, the ranks by active experts, then rows,
then shape. -/
structure OrderedLayer (expertsPerRank : Nat) (layer : List Nat) : Prop where
  experts : ∀ rank ∈ chunksExact expertsPerRank layer, rank.Pairwise (· ≥ ·)
  ranks : (chunksExact expertsPerRank layer).Pairwise fun left right => rankBefore left right

section averages

variable (e : Nat) (layers : List (List Nat))

/-- What the layers have at a place together. -/
def columnSum (place : Nat) : Nat := (layers.map fun counts => counts.getD place 0).sum

def rankSum (rank : Nat) : Nat := ((List.range e).map fun k => columnSum layers (rank * e + k)).sum

/-- The places of a rank that some layer uses. -/
def usedPlaces (rank : Nat) : Nat :=
  (List.range e).countP fun k => decide (0 < columnSum layers (rank * e + k))

/-- The places of a rank with an average of at least one. -/
def keptPlaces (rank : Nat) : Nat :=
  (List.range e).countP fun k => decide (layers.length ≤ columnSum layers (rank * e + k))

/-- What rounding can move: nothing at a place whose average is whole. -/
def slack (rank : Nat) : Nat :=
  ((List.range e).map fun k =>
    if columnSum layers (rank * e + k) % layers.length = 0 then 0 else layers.length - 1).sum

/-- A rank that no rounding puts behind the next one: it is no smaller at any place, or it
keeps more places than the next one uses, or as many and is larger by all that can move. -/
def StaysAhead (rank : Nat) : Prop :=
  (∀ k < e, columnSum layers ((rank + 1) * e + k) ≤ columnSum layers (rank * e + k)) ∨
    usedPlaces e layers (rank + 1) < keptPlaces e layers rank ∨
    usedPlaces e layers (rank + 1) ≤ keptPlaces e layers rank ∧
      rankSum e layers (rank + 1) + slack e layers rank + slack e layers (rank + 1) ≤
        rankSum e layers rank

/-- A rank that every rounding puts behind the next one. -/
def FallsBehind (rank : Nat) : Prop :=
  usedPlaces e layers rank ≤ keptPlaces e layers (rank + 1) ∧
    rankSum e layers rank + slack e layers rank + slack e layers (rank + 1) <
      rankSum e layers (rank + 1)

instance (rank : Nat) : Decidable (StaysAhead e layers rank) :=
  inferInstanceAs (Decidable (_ ∨ _ ∨ _))

instance (rank : Nat) : Decidable (FallsBehind e layers rank) :=
  inferInstanceAs (Decidable (_ ∧ _))

end averages

theorem mergeSort_eq_self {α : Type} {before : α → α → Bool} (h : Ranking before) {l : List α}
    (hl : l.Pairwise fun a b => before a b) : l.mergeSort before = l :=
  (h.eq_mergeSort (List.Perm.refl l) hl).symm

theorem OrderedLayer.canonical_eq {e : Nat} {layer : List Nat} (h : OrderedLayer e layer)
    (he : 0 < e) (hwidth : layer.length % e = 0) : canonical e layer = layer := by
  obtain ⟨ranks, rfl, hranks⟩ := exists_ranks (layer.length / e)
    (Nat.div_mul_cancel (Nat.dvd_of_mod_eq_zero hwidth)).symm
  have hexperts := h.experts
  have hordered := h.ranks
  rw [chunksExact_flatten he hranks] at hexperts hordered
  have hself : ranks.map (fun rank => rank.mergeSort (· ≥ ·)) = ranks := by
    refine (List.map_congr_left fun rank hrank => ?_).trans (List.map_id ranks)
    exact mergeSort_eq_self descending_ranking
      ((hexperts rank hrank).imp fun hle => decide_eq_true hle)
  rw [canonical_flatten he hranks, hself, mergeSort_eq_self rankBefore_ranking hordered]

theorem Foldable.relabelled_self {layers : List (List Nat)} {e n total : Nat}
    (h : Foldable layers e n total) : RelabelledLayers e layers layers := by
  refine ⟨layers, List.Perm.refl _, List.forall₂_same.2 fun layer hlayer => ?_⟩
  have hwidth : layer.length % e = 0 := by
    rw [h.equalWidth layer hlayer]
    exact h.divides
  obtain ⟨ranks, hflat, hranks⟩ := exists_ranks (layer.length / e)
    (Nat.div_mul_cancel (Nat.dvd_of_mod_eq_zero hwidth)).symm
  exact ⟨ranks, ranks, ranks, hranks, hflat, List.Perm.refl _,
    List.forall₂_same.2 fun _ _ => List.Perm.refl _, hflat⟩

/-! ## The ranks of the fold -/

section folded

variable {layers : List (List Nat)} {e n total : Nat}

theorem Foldable.placeSum_ordered (h : Foldable layers e n total) {ordered : List (List Nat)}
    (hlabels : RelabelledLayers e layers ordered)
    (hordered : ∀ layer ∈ ordered, OrderedLayer e layer) :
    ordered.length = layers.length ∧ placeSum e layers = columnSum ordered := by
  obtain ⟨hfoldable, hlength, hplaces⟩ := h.relabel hlabels
  refine ⟨hlength, hplaces.symm.trans (funext fun place => ?_)⟩
  unfold placeSum columnSum
  congr 1
  refine List.map_congr_left fun layer hlayer => ?_
  rw [(hordered layer hlayer).canonical_eq h.rank
    (by rw [hfoldable.equalWidth layer hlayer]; exact h.divides)]

/-- Entry `place` of the fold. -/
def foldedAt (e n total : Nat) (layers : List (List Nat)) (place : Nat) : Nat :=
  placeSum e layers place / layers.length + if place ∈ roundedUp e n total layers then 1 else 0

theorem rank_folded {rank : Nat} (hrank : rank < n / e) :
    ((give (placeFloors e n layers) (roundedUp e n total layers)).drop (rank * e)).take e =
      (List.range e).map fun k => foldedAt e n total layers (rank * e + k) := by
  have hlength : (give (placeFloors e n layers) (roundedUp e n total layers)).length = n := by
    simp [placeFloors]
  have hfits : rank * e + e ≤ n := by
    have := Nat.mul_le_mul_right e (Nat.succ_le_of_lt hrank)
    have hle := Nat.div_mul_le_self n e
    rw [Nat.succ_mul] at this
    omega
  apply List.ext_getElem
  · rw [List.length_take, List.length_drop, hlength, List.length_map, List.length_range]
    omega
  · intro k hk hk'
    have hke : k < e := by simpa using hk'
    rw [List.getElem_take, List.getElem_drop, List.getElem_map, List.getElem_range, foldedAt,
      ← Foldable.getD_folded (by omega)]
    exact (List.getD_eq_getElem _ _ _).symm

theorem activeExperts_map (f : Nat → Nat) (e : Nat) :
    activeExperts ((List.range e).map f) = (List.range e).countP fun k => decide (0 < f k) := by
  unfold activeExperts
  rw [← List.countP_eq_length_filter, List.countP_map]
  rfl

theorem Foldable.foldedAt_bounds (h : Foldable layers e n total) (place : Nat) :
    let moved := if placeSum e layers place % layers.length = 0 then 0 else layers.length - 1
    layers.length * foldedAt e n total layers place ≤ placeSum e layers place + moved ∧
      placeSum e layers place ≤ layers.length * foldedAt e n total layers place + moved := by
  have hdivide := Nat.div_add_mod (placeSum e layers place) layers.length
  have hlt := h.remainder_lt place
  have hdivisor := h.divisor_pos
  intro moved
  unfold foldedAt
  by_cases hup : place ∈ roundedUp e n total layers
  · have hpos := h.remainder_pos hup
    have hmoved : moved = layers.length - 1 := if_neg (by omega)
    rw [if_pos hup, Nat.mul_add, Nat.mul_one]
    omega
  · rw [if_neg hup, Nat.add_zero]
    by_cases hzero : placeSum e layers place % layers.length = 0
    · have hmoved : moved = 0 := if_pos hzero
      omega
    · have hmoved : moved = layers.length - 1 := if_neg hzero
      omega

theorem Foldable.foldedAt_active (h : Foldable layers e n total) (place : Nat) :
    (0 < foldedAt e n total layers place → 0 < placeSum e layers place) ∧
      (layers.length ≤ placeSum e layers place → 0 < foldedAt e n total layers place) := by
  constructor
  · intro hactive
    refine Nat.pos_of_ne_zero fun hzero => ?_
    have hbound := (h.foldedAt_bounds place).1
    rw [hzero, Nat.zero_mod, if_pos rfl, Nat.add_zero] at hbound
    have := Nat.mul_pos h.divisor_pos hactive
    omega
  · intro hkept
    have := Nat.div_pos hkept h.divisor_pos
    unfold foldedAt
    omega

theorem foldedAt_mono {place place' : Nat}
    (hbefore : place < place') (hn : place' < n)
    (hle : placeSum e layers place' ≤ placeSum e layers place) :
    foldedAt e n total layers place' ≤ foldedAt e n total layers place := by
  have hdivide := Nat.div_add_mod (placeSum e layers place) layers.length
  have hdivide' := Nat.div_add_mod (placeSum e layers place') layers.length
  have hfloors := Nat.div_le_div_right (c := layers.length) hle
  unfold foldedAt
  by_cases hfloor : placeSum e layers place' / layers.length =
      placeSum e layers place / layers.length
  · -- equal floors: the earlier place has no smaller remainder, so it comes first
    have hremainder : placeSum e layers place' % layers.length ≤
        placeSum e layers place % layers.length := by
      rw [hfloor] at hdivide'
      omega
    have hfirst : place' ∈ roundedUp e n total layers → place ∈ roundedUp e n total layers := by
      have hrank := largerFirst_ranking fun place => placeSum e layers place % layers.length
      have hahead : largerFirst (fun place => placeSum e layers place % layers.length) place
          place' = true := by
        rcases hremainder.lt_or_eq with hlt | heq
        · exact largerFirst_of_lt hlt
        · simp only [largerFirst, heq, ne_eq, not_true_eq_false, if_false, decide_eq_true_eq]
          omega
      unfold roundedUp placeRanking
      rw [hrank.mem_take_iff List.nodup_range, hrank.mem_take_iff List.nodup_range]
      rintro ⟨-, hfew⟩
      refine ⟨List.mem_range.mpr (by omega), lt_of_le_of_lt ?_ hfew⟩
      refine List.countP_mono_left fun other _ hother => ?_
      simp only [ne_eq, decide_not, Bool.and_eq_true, Bool.not_eq_eq_eq_not, Bool.not_true,
        decide_eq_false_iff_not] at hother ⊢
      refine ⟨fun heq => hother.1 ?_, hrank.trans other place place' hother.2 hahead⟩
      exact hrank.antisymm other place hother.2 (heq ▸ hahead)
    rw [hfloor]
    by_cases hup : place' ∈ roundedUp e n total layers
    · rw [if_pos hup, if_pos (hfirst hup)]
    · rw [if_neg hup]
      omega
  · split <;> split <;> omega

theorem Foldable.activeExperts_bounds (h : Foldable layers e n total) (rank : Nat) :
    let active := activeExperts
      ((List.range e).map fun k => foldedAt e n total layers (rank * e + k))
    ((List.range e).countP fun k =>
        decide (layers.length ≤ placeSum e layers (rank * e + k))) ≤ active ∧
      active ≤ (List.range e).countP fun k => decide (0 < placeSum e layers (rank * e + k)) := by
  intro active
  have hactive : active = _ := activeExperts_map _ e
  rw [hactive]
  constructor
  · refine List.countP_mono_left fun k _ hkept => ?_
    exact decide_eq_true ((h.foldedAt_active _).2 (of_decide_eq_true hkept))
  · refine List.countP_mono_left fun k _ hfolded => ?_
    exact decide_eq_true ((h.foldedAt_active _).1 (of_decide_eq_true hfolded))

theorem Foldable.rows_bounds (h : Foldable layers e n total) (rank : Nat) :
    let rows := ((List.range e).map fun k => foldedAt e n total layers (rank * e + k)).sum
    let sums := ((List.range e).map fun k => placeSum e layers (rank * e + k)).sum
    let moved := ((List.range e).map fun k =>
      if placeSum e layers (rank * e + k) % layers.length = 0 then 0 else layers.length - 1).sum
    layers.length * rows ≤ sums + moved ∧ sums ≤ layers.length * rows + moved := by
  intro rows sums moved
  have hrows : layers.length * rows = ((List.range e).map fun k =>
        layers.length * foldedAt e n total layers (rank * e + k)).sum := by
    rw [List.sum_map_mul_left]
  rw [hrows, ← List.sum_map_add, ← List.sum_map_add]
  exact ⟨List.sum_le_sum fun k _ => (h.foldedAt_bounds _).1,
    List.sum_le_sum fun k _ => (h.foldedAt_bounds _).2⟩

end folded

/-! ## When the order survives -/

instance : Trans (fun left right : List Nat => activeExperts right < activeExperts left ∨
      (activeExperts right = activeExperts left ∧ right.sum ≤ left.sum))
    (fun left right : List Nat => activeExperts right < activeExperts left ∨
      (activeExperts right = activeExperts left ∧ right.sum ≤ left.sum))
    (fun left right : List Nat => activeExperts right < activeExperts left ∨
      (activeExperts right = activeExperts left ∧ right.sum ≤ left.sum)) where
  trans := by
    intro a b c hab hbc
    omega

theorem ranksDescend_iff {e : Nat} {counts : List Nat} :
    RanksDescend e counts ↔ ∀ rank, rank + 1 < counts.length / e →
      let left := (counts.drop (rank * e)).take e
      let right := (counts.drop ((rank + 1) * e)).take e
      activeExperts right < activeExperts left ∨
        (activeExperts right = activeExperts left ∧ right.sum ≤ left.sum) := by
  unfold RanksDescend
  rw [← List.isChain_iff_pairwise, List.isChain_iff_getElem]
  simp only [chunksExact, List.length_map, List.length_range, List.getElem_map, List.getElem_range]

/-- Two of three layers leave the first rank's second expert and the second rank's
first expert unused: the averages 2/3 are rounded to zero, those of the second rank
are not. -/
theorem foldLayerwise_order_fails :
    ∃ folded, foldLayerwise [[10, 1, 2, 2], [10, 0, 5, 0], [10, 0, 5, 0]] 2 = .ok folded ∧
      ¬RanksDescend 2 folded ∧
      activeExperts (folded.take 2) < activeExperts (folded.drop 2) := by
  have h : Foldable [[10, 1, 2, 2], [10, 0, 5, 0], [10, 0, 5, 0]] 2 4 15 :=
    ⟨by decide, by decide, by decide, by decide, by decide, by decide⟩
  refine ⟨_, foldLayerwise_eq h, ?_⟩
  simp only [placeFloors, roundedUp, placeRanking, placeSum, canonical,
    descending_ranking.mergeSort_eq_insertionSort, rankBefore_ranking.mergeSort_eq_insertionSort,
    (largerFirst_ranking _).mergeSort_eq_insertionSort]
  decide +kernel

/-- **When the folded ranks are in order.** In terms of the layers, each in order: the fold of
accepted layers has its ranks in non-increasing order of active experts and rows if every
rank stays ahead of the next one, and has not if some rank falls behind. -/
theorem foldLayerwise_order {layers : List (List Nat)} {e n total : Nat}
    (h : Foldable layers e n total) :
    ∃ folded, foldLayerwise layers e = .ok folded ∧
      ∀ ordered, RelabelledLayers e layers ordered → (∀ layer ∈ ordered, OrderedLayer e layer) →
        ((∀ rank, rank + 1 < n / e → StaysAhead e ordered rank) → RanksDescend e folded) ∧
        ((∃ rank, rank + 1 < n / e ∧ FallsBehind e ordered rank) → ¬RanksDescend e folded) := by
  refine ⟨_, foldLayerwise_eq h, fun ordered hlabels hordered => ?_⟩
  have hlength : (give (placeFloors e n layers) (roundedUp e n total layers)).length = n := by
    simp [placeFloors]
  obtain ⟨hcount, hsums⟩ := h.placeSum_ordered hlabels hordered
  rw [ranksDescend_iff, hlength]
  have hactive := h.activeExperts_bounds
  have hrows := h.rows_bounds
  have hdivisor := h.divisor_pos
  have hfits : ∀ rank, rank + 1 < n / e → (rank + 1) * e + e ≤ n := fun rank hrank => by
    have := Nat.mul_le_mul_right e hrank
    have hle := Nat.div_mul_le_self n e
    rw [Nat.succ_mul] at this
    omega
  simp only [hsums, ← hcount] at hactive hrows hdivisor
  constructor
  · intro hahead rank hrank
    rw [rank_folded (by omega), rank_folded hrank]
    have hactive' := hactive (rank + 1)
    have hrows' := hrows (rank + 1)
    specialize hactive rank
    specialize hrows rank
    rcases hahead rank hrank with hplaces | hmore | ⟨hmany, hlarge⟩
    · -- no entry of the rank is smaller
      have hentries : ∀ k < e, foldedAt e n total layers ((rank + 1) * e + k) ≤
          foldedAt e n total layers (rank * e + k) := fun k hk => by
        have := hfits rank hrank
        refine foldedAt_mono ?_ (by omega) (by rw [hsums]; exact hplaces k hk)
        rw [Nat.succ_mul]
        omega
      have hcounts : activeExperts ((List.range e).map fun k =>
            foldedAt e n total layers ((rank + 1) * e + k)) ≤
          activeExperts ((List.range e).map fun k =>
            foldedAt e n total layers (rank * e + k)) := by
        rw [activeExperts_map, activeExperts_map]
        refine List.countP_mono_left fun k hk hpos => ?_
        exact decide_eq_true ((of_decide_eq_true hpos).trans_le (hentries k (List.mem_range.mp hk)))
      have hsum := List.sum_le_sum fun k hk => hentries k (List.mem_range.mp hk)
      exact hcounts.lt_or_eq.imp_right fun heq => ⟨heq, hsum⟩
    · exact .inl (hactive'.2.trans_lt (hmore.trans_le hactive.1))
    · have hcounts := hactive'.2.trans (hmany.trans hactive.1)
      refine hcounts.lt_or_eq.imp_right fun heq => ⟨heq, ?_⟩
      refine Nat.le_of_mul_le_mul_left ?_ hdivisor
      simp only [rankSum, slack] at hlarge
      omega
  · rintro ⟨rank, hrank, hmany, hlarge⟩ hdescend
    have hpair := hdescend rank hrank
    rw [rank_folded (by omega), rank_folded hrank] at hpair
    have hcounts := (hactive rank).2.trans (hmany.trans (hactive (rank + 1)).1)
    have hrow : ((List.range e).map fun k => foldedAt e n total layers (rank * e + k)).sum <
        ((List.range e).map fun k => foldedAt e n total layers ((rank + 1) * e + k)).sum := by
      have hleft := (hrows rank).1
      have hright := (hrows (rank + 1)).2
      simp only [rankSum, slack] at hlarge
      exact Nat.lt_of_mul_lt_mul_left (lt_of_le_of_lt hleft (by omega))
    omega

/-- Ranks that stay ahead, and a rank that the average puts behind. -/
theorem foldLayerwise_order_two :
    (∃ folded, foldLayerwise [[2, 1, 1, 0], [3, 1, 0, 0], [1, 1, 1, 1]] 2 = .ok folded ∧
      RanksDescend 2 folded) ∧
    ∃ folded, foldLayerwise [[1, 1, 100, 0], [40, 12, 40, 10]] 2 = .ok folded ∧
      ¬RanksDescend 2 folded := by
  have hahead : Foldable [[2, 1, 1, 0], [3, 1, 0, 0], [1, 1, 1, 1]] 2 4 4 :=
    ⟨by decide, by decide, by decide, by decide, by decide, by decide⟩
  have hbehind : Foldable [[1, 1, 100, 0], [40, 12, 40, 10]] 2 4 102 :=
    ⟨by decide, by decide, by decide, by decide, by decide, by decide⟩
  obtain ⟨folded, hfold, hkeeps⟩ := foldLayerwise_order hahead
  obtain ⟨folded', hfold', hkeeps'⟩ := foldLayerwise_order hbehind
  refine ⟨⟨folded, hfold, (hkeeps _ hahead.relabelled_self ?_).1 fun rank hrank => ?_⟩,
    folded', hfold', (hkeeps' _ hbehind.relabelled_self ?_).2 ⟨0, by decide, by decide⟩⟩
  · simp only [List.forall_mem_cons]
    exact ⟨⟨by decide, by decide⟩, ⟨by decide, by decide⟩, ⟨by decide, by decide⟩, by simp⟩
  · obtain rfl : rank = 0 := by omega
    decide
  · simp only [List.forall_mem_cons]
    exact ⟨⟨by decide, by decide⟩, ⟨by decide, by decide⟩, by simp⟩

end ServingSim
