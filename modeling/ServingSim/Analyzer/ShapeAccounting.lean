import ServingSim.Analyzer.ShapeSampling

/-
  What a shape sample accounts for.

  A stratum's weights add up to its iterations as soon as one of them is drawn: the
  largest-remainder pass cannot hand out more than it has shapes for. Nothing makes up for
  a draw that comes out empty, and a pool whose index does not fit its sixteen bits is
  taken for another.

  What is proved:
    1. `shape_sampling` — exactly when every worker's iterations are accounted for.
-/

namespace ServingSim

namespace ShapeSampling

open LargestRemainder

/-! ## Reweighting -/

/-- The occurrences of a stratum's shapes, added up. -/
def stratumTotal (occurrences : List Nat) (prefillFlags : List Bool) (carries : Bool) : Nat :=
  ((stratumIndices prefillFlags carries).map fun index => occurrences.getD index 0).sum

section reweight

variable {occurrences : List Nat} {flags : List Bool} {carries : Bool} {stratum size : Nat}

theorem mem_stratumIndices {index : Nat} : index ∈ stratumIndices flags carries ↔
      index < flags.length ∧ flags.getD index false = carries := by
  rw [stratumIndices, List.mem_filter, List.mem_range, decide_eq_true_eq]

theorem nodup_stratumIndices : (stratumIndices flags carries).Nodup :=
  List.nodup_range.filter _

theorem sum_count_of_subset {places taken : List Nat} (hnodup : places.Nodup)
    (hsub : ∀ place ∈ taken, place ∈ places) :
    (places.map fun place => taken.count place).sum = taken.length := by
  rw [← List.sum_toFinset _ hnodup]
  have h := Multiset.sum_count_eq_card (s := places.toFinset) (m := (taken : Multiset Nat))
    fun place hplace => List.mem_toFinset.mpr (hsub place hplace)
  simpa using h

variable (stratum) in
/-- Reweighting a stratum that something was drawn from: its occurrences add up to the
stratum, each within one of its share, and no other occurrence moves. -/
theorem reweightStratum_spec (hlength : occurrences.length = flags.length)
    (hsize : stratumTotal occurrences flags carries = size) :
    (reweightStratum occurrences flags carries stratum size).length = occurrences.length ∧
    (∀ index ∉ stratumIndices flags carries,
      (reweightStratum occurrences flags carries stratum size).getD index 0 =
        occurrences.getD index 0) ∧
    (0 < size →
      stratumTotal (reweightStratum occurrences flags carries stratum size) flags carries =
        stratum ∧
      ∀ index ∈ stratumIndices flags carries,
        (reweightStratum occurrences flags carries stratum size).getD index 0 * size <
          occurrences.getD index 0 * stratum + size ∧
        occurrences.getD index 0 * stratum <
          (reweightStratum occurrences flags carries stratum size).getD index 0 * size + size) := by
  by_cases hkept : size = 0 ∨ stratum = size
  · rw [reweightStratum, if_pos hkept]
    refine ⟨rfl, fun _ _ => rfl, fun hpos => ⟨?_, fun index _ => ?_⟩⟩
    · rw [hsize, hkept.resolve_left hpos.ne']
    · rw [hkept.resolve_left hpos.ne']
      omega
  · rw [not_or] at hkept
    have hpos : 0 < size := Nat.pos_of_ne_zero hkept.1
    rw [reweightStratum, if_neg (not_or.mpr hkept)]
    -- what the floors leave over, and who gets it
    set share := fun index => occurrences.getD index 0 * stratum with hshare
    set indices := stratumIndices flags carries with hindices
    have hshares : (indices.map share).sum = stratum * size := by
      rw [hshare, List.sum_map_mul_right, mul_comm, ← hsize]
      rfl
    have hsplit := sum_div_add_sum_mod size (indices.map share)
    rw [List.map_map, List.map_map, hshares] at hsplit
    set assigned := (indices.map fun index => share index / size).sum with hassigned
    change size * assigned + (indices.map fun index => share index % size).sum =
      stratum * size at hsplit
    have hle : assigned ≤ stratum := by
      refine Nat.le_of_mul_le_mul_left ?_ hpos
      rw [mul_comm size stratum]
      omega
    have hrest : (indices.map fun index => share index % size).sum =
        (stratum - assigned) * size := by
      rw [Nat.sub_mul, mul_comm assigned]
      omega
    have hremainder : ∀ index, share index % size < size := fun index => Nat.mod_lt _ hpos
    have hquota := quota_le_length hremainder hrest
    set taken := (indices.mergeSort (largerFirst fun index => share index % size)).take
      (stratum - assigned) with htaken
    have hnodup : taken.Nodup :=
      ((List.mergeSort_perm _ _).nodup_iff.mpr nodup_stratumIndices).sublist
        (List.take_sublist _ _)
    have hsub : ∀ place ∈ taken, place ∈ indices := fun place hplace =>
      List.mem_mergeSort.mp (List.mem_of_mem_take hplace)
    have hcount : taken.length = stratum - assigned := by
      rw [htaken, List.length_take, List.length_mergeSort]
      omega
    set floored := occurrences.zipIdx.map fun shape =>
      if shape.2 ∈ indices then share shape.2 / size else shape.1 with hfloored
    have hlengthFloored : floored.length = occurrences.length := by
      rw [hfloored, List.length_map, List.length_zipIdx]
    have hgetFloored : ∀ index < occurrences.length, floored.getD index 0 =
        if index ∈ indices then share index / size else occurrences.getD index 0 := by
      intro index hindex
      rw [hfloored, List.getD_eq_getElem?_getD, List.getElem?_map, List.getElem?_zipIdx,
        List.getElem?_eq_getElem hindex, List.getD_eq_getElem _ _ hindex]
      simp
    have hnew : ∀ index < occurrences.length, (give floored taken).getD index 0 =
        (if index ∈ indices then share index / size else occurrences.getD index 0) +
          taken.count index := by
      intro index hindex
      rw [getD_give (by rwa [hlengthFloored]), hgetFloored index hindex]
    have hwithin : ∀ index ∈ indices, index < occurrences.length := fun index hindex => by
      rw [hlength]
      exact (mem_stratumIndices.mp hindex).1
    refine ⟨by rw [length_give, hlengthFloored], fun index hindex => ?_, fun _ => ⟨?_, ?_⟩⟩
    · by_cases hin : index < occurrences.length
      · rw [hnew index hin, if_neg hindex,
          List.count_eq_zero_of_not_mem fun h => hindex (hsub index h), Nat.add_zero]
      · rw [List.getD_eq_default _ _ (by rw [length_give, hlengthFloored]; omega),
          List.getD_eq_default _ _ (by omega)]
    · have hterms : indices.map (fun index => (give floored taken).getD index 0) =
          indices.map fun index => share index / size + taken.count index := by
        refine List.map_congr_left fun index hindex => ?_
        rw [hnew index (hwithin index hindex), if_pos hindex]
      show (indices.map fun index => (give floored taken).getD index 0).sum = stratum
      rw [hterms, List.sum_map_add, sum_count_of_subset nodup_stratumIndices hsub, hcount]
      show assigned + (stratum - assigned) = stratum
      omega
    · intro index hindex
      rw [hnew index (hwithin index hindex), if_pos hindex, hnodup.count]
      have hdiv := Nat.div_add_mod (share index) size
      have hmod := hremainder index
      change _ < share index + size ∧ share index < _
      rw [Nat.add_mul, mul_comm _ size]
      split
      · next htakenAt =>
        -- one more goes to a share with a remainder only
        have hpositive := residual_pos_of_mem_take (fun index => share index % size)
          nodup_stratumIndices hremainder hrest htakenAt
        omega
      · omega

end reweight

/-! ## An iteration's workload -/

/-- Does a group run prefill? -/
def WorkloadGroup.RunsPrefill (g : WorkloadGroup) : Prop := 0 < g.prefillTokens ∨ g.chunks ≠ []

instance (g : WorkloadGroup) : Decidable g.RunsPrefill :=
  inferInstanceAs (Decidable (0 < g.prefillTokens ∨ g.chunks ≠ []))

/-- A group's decode requests are those it lists. -/
def WorkloadGroup.Consistent (g : WorkloadGroup) : Prop :=
  ∀ kvLens ∈ g.decodeKvLens, kvLens.length = g.decodeRequestCount

/-- A group's workload, added. -/
def addedGroup (totals : WorkloadTotals) (g : WorkloadGroup) : WorkloadTotals :=
  let scalars := addScalars totals g
  let entries := (g.decodeKvLens.getD []).foldl
    (fun entries kvLen => bumpEntry ("decode:" ++ toString kvLen) entries) scalars.requestGeometry
  g.chunks.foldl (addChunk g.decodeKvLens.isSome) { scalars with requestGeometry := entries }

/-- The workload of rows, added up. -/
def summed (rows : List CostRow) : WorkloadTotals :=
  rows.foldl (fun totals row => row.groups.foldl addedGroup totals) WorkloadTotals.default

theorem addGroup_eq {totals : WorkloadTotals} {g : WorkloadGroup} (h : g.Consistent) :
    addGroup totals g = .ok (addedGroup totals g) := by
  unfold addGroup addDecodeLens addedGroup
  cases hlens : g.decodeKvLens with
  | none => rfl
  | some kvLens =>
    have hcount := h kvLens (by rw [hlens]; rfl)
    simp only [ensure, if_pos hcount]
    rfl

theorem foldlM_eq_ok {α β : Type} {f : β → α → Except String β} {g : β → α → β} {l : List α}
    (h : ∀ a ∈ l, ∀ b, f b a = .ok (g b a)) (b : β) : l.foldlM f b = .ok (l.foldl g b) := by
  induction l generalizing b with
  | nil => rfl
  | cons a l ih =>
    rw [List.foldlM_cons, h a List.mem_cons_self]
    exact ih (fun a ha => h a (List.mem_cons_of_mem _ ha)) _

theorem addRows_eq {rows : List CostRow} (h : ∀ row ∈ rows, ∀ g ∈ row.groups, g.Consistent) :
    rows.foldlM (fun totals row => addRange totals row.groups) WorkloadTotals.default =
      .ok (summed rows) :=
  foldlM_eq_ok (fun row hrow _ =>
    foldlM_eq_ok (fun g hg _ => addGroup_eq (h row hrow g hg)) _) _

theorem carriesPrefill_addChunks (chunks : List (Nat × Nat)) (geometry : Bool)
    (totals : WorkloadTotals) :
    carriesPrefill (chunks.foldl (addChunk geometry) totals) = true ↔
      carriesPrefill totals = true ∨ chunks ≠ [] := by
  induction chunks generalizing totals with
  | nil => simp
  | cons chunk chunks ih =>
    have hchunk : carriesPrefill (addChunk geometry totals chunk) = true := by
      simp [carriesPrefill, addChunk, addPrefillRequest]
    rw [List.foldl_cons, ih]
    exact ⟨fun _ => .inr (List.cons_ne_nil _ _), fun _ => .inl hchunk⟩

theorem carriesPrefill_addedGroup (totals : WorkloadTotals) (g : WorkloadGroup) :
    carriesPrefill (addedGroup totals g) = true ↔ carriesPrefill totals = true ∨ g.RunsPrefill := by
  rw [addedGroup, carriesPrefill_addChunks, WorkloadGroup.RunsPrefill, ← or_assoc]
  refine or_congr_left ?_
  show (decide (0 < totals.prefillTokens + g.prefillTokens) ||
    decide (0 < totals.prefillPairs) || decide (0 < totals.prefillRequests)) = true ↔ _
  simp only [carriesPrefill, Bool.or_eq_true, decide_eq_true_eq]
  omega

theorem carriesPrefill_summed (rows : List CostRow) : carriesPrefill (summed rows) = true ↔
      ∃ row ∈ rows, ∃ g ∈ row.groups, g.RunsPrefill := by
  have hgroups : ∀ (groups : List WorkloadGroup) (totals : WorkloadTotals),
      carriesPrefill (groups.foldl addedGroup totals) = true ↔
        carriesPrefill totals = true ∨ ∃ g ∈ groups, g.RunsPrefill := by
    intro groups
    induction groups with
    | nil => intro totals; simp
    | cons g groups ih =>
      intro totals
      rw [List.foldl_cons, ih, carriesPrefill_addedGroup, or_assoc, List.exists_mem_cons_iff]
  have hrows : ∀ (rows : List CostRow) (totals : WorkloadTotals),
      carriesPrefill (rows.foldl (fun totals row => row.groups.foldl addedGroup totals) totals) =
        true ↔
        carriesPrefill totals = true ∨ ∃ row ∈ rows, ∃ g ∈ row.groups, g.RunsPrefill := by
    intro rows
    induction rows with
    | nil => intro totals; simp
    | cons row rows ih =>
      intro totals
      rw [List.foldl_cons, ih, hgroups, or_assoc, List.exists_mem_cons_iff]
  have hdefault : ¬carriesPrefill WorkloadTotals.default = true := by decide
  exact (hrows rows _).trans (or_iff_right hdefault)

/-- Counts that a float holds exactly. -/
structure WorkloadTotals.Exact (totals : WorkloadTotals) : Prop where
  scalars : ∀ value ∈ [totals.matmulTokens, totals.prefillTokens, totals.decodePasses,
    totals.prefillPairs, totals.prefillCached, totals.decodeKv, totals.prefillRequests,
    totals.prefillStatefulRequests], value < 2 ^ 53
  geometries : ∀ entry ∈ totals.speculativeGeometry ++ totals.requestGeometry, entry.2 < 2 ^ 53

theorem exactCount_eq {value : Nat} (h : value < 2 ^ 53) (fieldName : String) :
    exactCount value fieldName = .ok value := by
  have hle : value ≤ 2 ^ 64 := h.le.trans (Nat.pow_le_pow_right (by omega) (by omega))
  have hmin : min value (2 ^ 64 - 1) = value :=
    min_eq_left (Nat.le_sub_one_of_lt (h.trans (Nat.pow_lt_pow_right (by omega) (by omega))))
  rw [exactCount, ensure, if_pos hle, hmin]
  rfl

theorem exactEntries_eq {entries : List (String × Nat)} (h : ∀ entry ∈ entries, entry.2 < 2 ^ 53)
    (fieldName : String) : exactEntries entries fieldName = .ok entries := by
  have hmap : exactEntries entries fieldName = .ok (entries.map id) :=
    mapM_eq_ok_of_forall fun entry hentry => by
      rw [exactCount_eq (h entry hentry)]
      rfl
  rw [hmap, List.map_id]

theorem fromTotals_eq {totals : WorkloadTotals} (h : totals.Exact) :
    fromTotals totals = .ok totals := by
  obtain ⟨hscalars, hgeometries⟩ := h
  simp only [List.forall_mem_cons, List.forall_mem_append] at hscalars hgeometries
  obtain ⟨h1, h2, h3, h4, h5, h6, h7, h8, -⟩ := hscalars
  unfold fromTotals
  rw [exactCount_eq h1, exactCount_eq h2, exactCount_eq h3, exactCount_eq h4, exactCount_eq h5,
    exactCount_eq h6, exactCount_eq h7, exactCount_eq h8, exactEntries_eq hgeometries.1,
    exactEntries_eq hgeometries.2]
  rfl

/-! ## Pools -/

section pools

variable {rows : List CostRow}

theorem internPools_spec (rows : List CostRow) : (internPools rows).Nodup ∧
      ∀ tag, tag ∈ internPools rows ↔ ∃ row ∈ rows, row.poolTag = tag := by
  have hfold : ∀ (rows : List CostRow) (tags : List String), tags.Nodup →
      (rows.foldl (fun tags row => if row.poolTag ∈ tags then tags else tags ++ [row.poolTag])
        tags).Nodup ∧
      ∀ tag, tag ∈ rows.foldl
        (fun tags row => if row.poolTag ∈ tags then tags else tags ++ [row.poolTag]) tags ↔
          tag ∈ tags ∨ ∃ row ∈ rows, row.poolTag = tag := by
    intro rows
    induction rows with
    | nil => exact fun tags htags => ⟨htags, by simp⟩
    | cons row rows ih =>
      intro tags htags
      rw [List.foldl_cons]
      by_cases hmem : row.poolTag ∈ tags
      · rw [if_pos hmem]
        refine ⟨(ih tags htags).1, fun tag => ?_⟩
        rw [(ih tags htags).2, List.exists_mem_cons_iff]
        constructor
        · exact fun h => h.imp_right .inr
        · rintro (h | rfl | h)
          · exact .inl h
          · exact .inl hmem
          · exact .inr h
      · rw [if_neg hmem]
        have hnodup : (tags ++ [row.poolTag]).Nodup := by
          rw [List.nodup_append]
          exact ⟨htags, List.nodup_singleton _, fun a ha b hb heq => by
            rw [List.mem_singleton.mp hb] at heq
            exact hmem (heq ▸ ha)⟩
        refine ⟨(ih _ hnodup).1, fun tag => ?_⟩
        rw [(ih _ hnodup).2, List.mem_append, List.mem_singleton, List.exists_mem_cons_iff,
          or_assoc, eq_comm]
  have h := hfold rows [] List.nodup_nil
  exact ⟨h.1, fun tag => (h.2 tag).trans (by simp)⟩

theorem length_internPools (rows : List CostRow) :
    (internPools rows).length = (rows.map CostRow.poolTag).toFinset.card := by
  rw [← List.toFinset_card_of_nodup (internPools_spec rows).1]
  congr 1
  ext tag
  rw [List.mem_toFinset, (internPools_spec rows).2, List.mem_toFinset, List.mem_map]

end pools

/-! ## One worker's sample -/

section sample

theorem stratumTotal_eq_zip {α : Type} (f : α → Bool) (xs : List α) {ns : List Nat}
    (h : ns.length = xs.length) (b : Bool) :
    stratumTotal ns (xs.map f) b = (((xs.zip ns).filter fun x => f x.1 = b).map Prod.snd).sum := by
  induction xs generalizing ns with
  | nil => rfl
  | cons x xs ih =>
    obtain ⟨n, ns, rfl⟩ := List.exists_cons_of_length_eq_add_one h
    have hrest := ih (Nat.succ.inj h)
    have hindices : stratumIndices ((x :: xs).map f) b =
        (if f x = b then [0] else []) ++ (stratumIndices (xs.map f) b).map Nat.succ := by
      rw [stratumIndices, List.map_cons, List.length_cons, List.range_succ_eq_map,
        List.filter_cons, List.filter_map, stratumIndices]
      by_cases hx : f x = b
      · simp [hx, Function.comp_def]
      · simp [hx, Function.comp_def]
    have htail : ((stratumIndices (xs.map f) b).map Nat.succ).map
        (fun index => (n :: ns).getD index 0) =
        (stratumIndices (xs.map f) b).map fun index => ns.getD index 0 := by
      rw [List.map_map]
      rfl
    rw [stratumTotal, hindices, List.map_append, List.sum_append, htail, List.zip_cons_cons,
      List.filter_cons]
    change _ + stratumTotal ns (xs.map f) b = _
    rw [hrest]
    by_cases hx : f x = b
    · simp [hx]
    · simp [hx]

theorem stratumTotal_map {α : Type} (f : α → Bool) (o : α → Nat) (xs : List α) (b : Bool) :
    stratumTotal (xs.map o) (xs.map f) b = ((xs.filter fun x => f x = b).map o).sum := by
  rw [stratumTotal_eq_zip f xs (List.length_map _), ← List.map_prod_left_eq_zip,
    List.filter_map, List.map_map]
  rfl

theorem sum_countP_eq {α β : Type} [DecidableEq β] (f : α → β) (l : List α) {values : List β}
    (hnodup : values.Nodup) :
    (values.map fun value => l.countP fun a => f a = value).sum =
      l.countP fun a => f a ∈ values := by
  induction values with
  | nil => simp
  | cons value values ih =>
    obtain ⟨hvalue, hrest⟩ := List.nodup_cons.mp hnodup
    have hsplit : (l.countP fun a => f a = value) + (l.countP fun a => f a ∈ values) =
        l.countP fun a => f a ∈ value :: values := by
      clear ih
      induction l with
      | nil => rfl
      | cons a l ihl =>
        rw [List.countP_cons, List.countP_cons, List.countP_cons, ← ihl]
        by_cases heq : f a = value
        · have hnot : f a ∉ values := heq ▸ hvalue
          simp [heq, hvalue]
          omega
        · simp [heq]
          omega
    rw [List.map_cons, List.sum_cons, ih hrest, hsplit]

variable {targets : Targets} {iterations : List Iteration} {kept : List SampledShape}
  {worker : WorkerKey} {ids : List Nat} {totals : Nat → WorkloadTotals}

theorem sortShapes_perm (shapes : List WorkloadShape) : (sortShapes shapes).Perm shapes :=
  List.perm_insertionSort _ _

theorem workerSample_shapes
    (hmine : (kept.filter fun k => k.worker = worker) =
      ids.map fun id => ⟨worker, carriesPrefill (totals id), totals id⟩) :
    let shapes := sortShapes (ids.map totals).dedup
    let flags := shapes.map carriesPrefill
    let count := fun b => ids.countP fun id => carriesPrefill (totals id) = b
    (workerSample targets iterations kept worker).shapes =
      shapes.zipWith WeightedWorkload.mk (reweightStratum
        (reweightStratum (shapes.map fun shape => ids.countP fun id => totals id = shape) flags
          false (stratumOf iterations worker false).length (count false))
        flags true (stratumOf iterations worker true).length (count true)) := by
  intro shapes flags count
  have hshapes : ((kept.filter fun k => k.worker = worker).map SampledShape.shape) =
      ids.map totals := by
    rw [hmine, List.map_map]
    rfl
  have hcount : ∀ shape, ((kept.filter fun k => k.worker = worker).countP fun k =>
      k.shape = shape) = ids.countP fun id => totals id = shape := by
    intro shape
    rw [hmine, List.countP_map]
    rfl
  have hprefill : ((kept.filter fun k => k.worker = worker).countP fun k => k.carries) =
      count true := by
    rw [hmine, List.countP_map]
    exact List.countP_congr fun id _ => by simp
  have hdecode : ((kept.filter fun k => k.worker = worker).countP fun k => !k.carries) =
      count false := by
    rw [hmine, List.countP_map]
    exact List.countP_congr fun id _ => by simp
  have hflags : (shapes.map fun shape => decide (∃ k ∈ (kept.filter fun k : SampledShape =>
      k.worker = worker),
      k.carries = true ∧ k.shape = shape)) = flags := by
    refine List.map_congr_left fun shape hshape => ?_
    obtain ⟨id, hid, rfl⟩ := List.mem_map.mp
      (List.mem_dedup.mp ((List.perm_insertionSort _ _).mem_iff.mp hshape))
    rw [hmine, Bool.eq_iff_iff, decide_eq_true_eq]
    constructor
    · rintro ⟨k, hk, hcarries, hsame⟩
      obtain ⟨id', -, rfl⟩ := List.mem_map.mp hk
      exact hsame ▸ hcarries
    · exact fun hcarries => ⟨_, List.mem_map_of_mem hid, hcarries, rfl⟩
  simp only [workerSample, hshapes, hcount, hprefill, hdecode]
  rw [hflags]

variable (targets iterations) in
/-- A sample of drawn iterations: a stratum's weights are its iterations if one is drawn, and
nothing otherwise; each weight is within one of its shape's share. -/
theorem workerSample_spec
    (hmine : (kept.filter fun k => k.worker = worker) =
      ids.map fun id => ⟨worker, carriesPrefill (totals id), totals id⟩) (b : Bool) :
    (0 < (ids.countP fun id => carriesPrefill (totals id) = b) →
      (((workerSample targets iterations kept worker).shapes.filter fun shape =>
        carriesPrefill shape.totals = b).map WeightedWorkload.occurrences).sum =
          (stratumOf iterations worker b).length) ∧
    (∀ shape ∈ (workerSample targets iterations kept worker).shapes,
      carriesPrefill shape.totals = b →
      0 < (ids.countP fun id => carriesPrefill (totals id) = b) ∧
      shape.occurrences * (ids.countP fun id => carriesPrefill (totals id) = b) <
        (ids.countP fun id => totals id = shape.totals) * (stratumOf iterations worker b).length +
          (ids.countP fun id => carriesPrefill (totals id) = b) ∧
      (ids.countP fun id => totals id = shape.totals) * (stratumOf iterations worker b).length <
        shape.occurrences * (ids.countP fun id => carriesPrefill (totals id) = b) +
          (ids.countP fun id => carriesPrefill (totals id) = b)) := by
  set shapes := sortShapes (ids.map totals).dedup with hshapes
  have hmem : ∀ shape, shape ∈ shapes ↔ ∃ id ∈ ids, totals id = shape := by
    intro shape
    rw [hshapes, (sortShapes_perm _).mem_iff, List.mem_dedup, List.mem_map]
  have hnodup : shapes.Nodup := (sortShapes_perm _).nodup_iff.mpr (List.nodup_dedup _)
  set flags := shapes.map carriesPrefill with hflags
  set occurrences := shapes.map fun shape => ids.countP fun id => totals id = shape with hocc
  set count := fun b => ids.countP fun id => carriesPrefill (totals id) = b with hcount
  set size := fun b => (stratumOf iterations worker b).length with hsize
  set first := reweightStratum occurrences flags false (size false) (count false) with hfirst
  set second := reweightStratum first flags true (size true) (count true) with hsecond
  have hsample : (workerSample targets iterations kept worker).shapes =
      shapes.zipWith WeightedWorkload.mk second := workerSample_shapes hmine
  have hlengths : occurrences.length = flags.length := by
    rw [hocc, hflags, List.length_map, List.length_map]
  have hdrawn : ∀ b, stratumTotal occurrences flags b = count b := by
    intro b
    rw [hocc, hflags, stratumTotal_map, sum_countP_eq totals ids (hnodup.filter _)]
    refine List.countP_congr fun id hid => ?_
    have hshape : totals id ∈ shapes := (hmem _).mpr ⟨id, hid, rfl⟩
    simp [List.mem_filter, hshape]
  have hapart : ∀ index ∈ stratumIndices flags true, index ∉ stratumIndices flags false := by
    intro index htrue hfalse
    have h := (mem_stratumIndices.mp htrue).2
    rw [(mem_stratumIndices.mp hfalse).2] at h
    exact Bool.false_ne_true h
  -- the decode-only stratum first, which leaves the other where it is
  obtain ⟨hlength₁, houtside₁, hfirst⟩ := reweightStratum_spec (size false) hlengths (hdrawn false)
  have hsize₁ : stratumTotal first flags true = count true := by
    rw [← hdrawn true, stratumTotal, stratumTotal]
    exact congrArg List.sum (List.map_congr_left fun index hi => houtside₁ index (hapart index hi))
  obtain ⟨hlength₂, houtside₂, hsecond⟩ :=
    reweightStratum_spec (size true) (hlength₁.trans hlengths) hsize₁
  have hfinal : ∀ b, 0 < count b → stratumTotal second flags b = size b ∧
      ∀ index ∈ stratumIndices flags b,
        second.getD index 0 * count b < occurrences.getD index 0 * size b + count b ∧
        occurrences.getD index 0 * size b < second.getD index 0 * count b + count b := by
    intro b hpos
    cases b with
    | false =>
      have hsame : ∀ index ∈ stratumIndices flags false,
          second.getD index 0 = first.getD index 0 := fun index hi =>
        houtside₂ index fun htrue => hapart index htrue hi
      obtain ⟨htotal, hshares⟩ := hfirst hpos
      refine ⟨?_, fun index hi => by rw [hsame index hi]; exact hshares index hi⟩
      rw [← htotal]
      exact congrArg List.sum (List.map_congr_left hsame)
    | true =>
      obtain ⟨htotal, hshares⟩ := hsecond hpos
      refine ⟨htotal, fun index hi => ?_⟩
      rw [← houtside₁ index (hapart index hi)]
      exact hshares index hi
  have hlengthSecond : second.length = shapes.length := by
    rw [hlength₂, hlength₁, hocc, List.length_map]
  have hzip : shapes.zipWith WeightedWorkload.mk second =
      (shapes.zip second).map fun x => ⟨x.1, x.2⟩ := by
    rw [List.zip, List.map_zipWith]
  rw [hsample]
  refine ⟨fun hpos => ?_, fun shape hshape hcarries => ?_⟩
  · refine Eq.trans ?_ (hfinal b hpos).1
    rw [hflags, stratumTotal_eq_zip carriesPrefill shapes hlengthSecond, hzip, List.filter_map,
      List.map_map]
    rfl
  · obtain ⟨index, hlt, rfl⟩ := List.mem_iff_getElem.mp hshape
    have hlt' : index < shapes.length := by
      rw [List.length_zipWith] at hlt
      omega
    rw [List.getElem_zipWith] at hcarries ⊢
    have hin : index ∈ stratumIndices flags b := by
      refine mem_stratumIndices.mpr ⟨by rwa [hflags, List.length_map], ?_⟩
      rw [hflags, List.getD_eq_getElem _ _ (by rwa [List.length_map]), List.getElem_map]
      exact hcarries
    obtain ⟨id, hid, hsame⟩ := (hmem _).mp (List.getElem_mem hlt')
    have hpos : 0 < count b := by
      refine List.countP_pos_iff.mpr ⟨id, hid, ?_⟩
      rw [hsame]
      exact decide_eq_true hcarries
    have hshares := (hfinal b hpos).2 index hin
    rw [List.getD_eq_getElem second _ (by rwa [hlengthSecond]), hocc,
      List.getD_eq_getElem _ _ (by rwa [List.length_map]), List.getElem_map] at hshares
    exact ⟨hpos, hshares⟩

end sample

/-! ## Iterations of a run -/

/-- Is a row a worker's, of a pool tag and a number in the pool? -/
def belongs (w : String × Nat) (row : CostRow) : Bool :=
  decide (row.poolTag = w.1 ∧ row.workerId = w.2)

def iterationIds (rows : List CostRow) (w : String × Nat) : Finset Nat :=
  ((rows.filter (belongs w)).map CostRow.iterId).toFinset

/-- A worker's iteration runs prefill when a group of its rows does. -/
def RunsPrefill (rows : List CostRow) (w : String × Nat) (id : Nat) : Prop :=
  ∃ row ∈ rows.filter fun row => belongs w row && row.iterId = id, ∃ g ∈ row.groups, g.RunsPrefill

instance (rows : List CostRow) (w : String × Nat) (id : Nat) : Decidable (RunsPrefill rows w id) :=
  inferInstanceAs (Decidable (∃ row ∈ rows.filter fun row => belongs w row && row.iterId = id,
    ∃ g ∈ row.groups, g.RunsPrefill))

/-- The workload of a worker's iteration. -/
def iterationTotals (rows : List CostRow) (w : String × Nat) (id : Nat) : WorkloadTotals :=
  summed (rows.filter fun row => belongs w row && row.iterId = id)

/-- A worker's prefill-carrying iterations, or its decode-only ones. -/
def stratum (rows : List CostRow) (w : String × Nat) (carries : Bool) : Finset Nat :=
  (iterationIds rows w).filter fun id => decide (RunsPrefill rows w id) = carries

/-- The iterations that are drawn from a stratum. -/
def draw (rows : List CostRow) (targets : Targets) (w : String × Nat) (carries : Bool) :
    Finset Nat :=
  (stratum rows w carries).filter fun id =>
    drawn targets (stratum rows w carries).card carries id = true

/-- A cost log whose groups list their decode requests, and whose iterations have numbers and
counts that a float holds exactly. -/
structure Readable (rows : List CostRow) : Prop where
  ids : ∀ row ∈ rows, row.iterId < 2 ^ 53
  consistent : ∀ row ∈ rows, ∀ g ∈ row.groups, g.Consistent
  exact : ∀ w id, (iterationTotals rows w id).Exact

/-- A worker's iterations are accounted for: there is a sample, each stratum's occurrences
add up to the stratum, all of them to the iterations it reports, and each shape's are within
one of its share. -/
structure Accounted (rows : List CostRow) (targets : Targets)
    (samples : List ((String × Nat) × WorkerShapeSample)) (w : String × Nat)
    (sample : WorkerShapeSample) : Prop where
  found : samples.lookup w = some sample
  iterations : sample.iterations = (iterationIds rows w).card
  total : (sample.shapes.map WeightedWorkload.occurrences).sum = sample.iterations
  strata : ∀ carries, ((sample.shapes.filter fun shape => carriesPrefill shape.totals = carries).map
    WeightedWorkload.occurrences).sum = (stratum rows w carries).card
  shares : ∀ shape ∈ sample.shapes,
    let carries := carriesPrefill shape.totals
    let kept := (draw rows targets w carries).filter fun id =>
      iterationTotals rows w id = shape.totals
    |(shape.occurrences : ℚ) - (kept.card : ℚ) * (stratum rows w carries).card /
      (draw rows targets w carries).card| < 1

section run

variable {rows : List CostRow}

theorem runsPrefill_iff (rows : List CostRow) (w : String × Nat) (id : Nat) :
    carriesPrefill (iterationTotals rows w id) = decide (RunsPrefill rows w id) := by
  rw [Bool.eq_iff_iff, decide_eq_true_eq, iterationTotals, carriesPrefill_summed]
  rfl

/-- A worker's key, from its pool's place among the pools. -/
def keyOf (rows : List CostRow) (w : String × Nat) : WorkerKey :=
  ((internPools rows).idxOf w.1 % 2 ^ 16, w.2)

theorem workerKey_eq (row : CostRow) :
    workerKey (internPools rows) row = keyOf rows (row.poolTag, row.workerId) := rfl

theorem belongs_self (row : CostRow) : belongs (row.poolTag, row.workerId) row = true := by
  simp [belongs]

/-- The iterations of a run, as the table has them. -/
def iterationsOf (rows : List CostRow) : List Iteration :=
  (rows.map fun row => (workerKey (internPools rows) row, row.iterId)).dedup.map fun k =>
    ⟨k.1, k.2, summed (rows.filter fun row =>
      (workerKey (internPools rows) row, row.iterId) = k)⟩

theorem readRow_eq {row : CostRow} (h : row.iterId < 2 ^ 53) : readRow row = .ok row := by
  rw [readRow, exactCount_eq h]
  rfl

theorem totalsByIteration_eq (h : Readable rows) :
    totalsByIteration rows = .ok (iterationsOf rows) := by
  have hread : rows.mapM readRow = .ok rows := by
    rw [mapM_eq_ok_of_forall fun row hrow => readRow_eq (h.ids row hrow), List.map_id']
  rw [totalsByIteration, hread]
  refine mapM_eq_ok_of_forall fun k _ => ?_
  have hrows : ∀ row ∈ rows.filter fun row =>
      (workerKey (internPools rows) row, row.iterId) = k,
      ∀ g ∈ row.groups, g.Consistent :=
    fun row hrow => h.consistent row (List.mem_of_mem_filter hrow)
  rw [addRows_eq hrows]
  rfl

/-- A worker's iteration numbers, as the table has them. -/
def idsOf (rows : List CostRow) (w : String × Nat) : List Nat :=
  ((rows.map fun row => (workerKey (internPools rows) row, row.iterId)).dedup.filter fun k =>
    k.1 = keyOf rows w).map Prod.snd

variable (hpools : (internPools rows).length ≤ 2 ^ 16)
include hpools

theorem keyOf_injective {w w' : String × Nat} (hw : w.1 ∈ internPools rows)
    (hw' : w'.1 ∈ internPools rows) (h : keyOf rows w = keyOf rows w') : w = w' := by
  obtain ⟨hindex, hnumber⟩ := Prod.mk.inj h
  have hlt := (List.idxOf_lt_length_of_mem hw).trans_le hpools
  have hlt' := (List.idxOf_lt_length_of_mem hw').trans_le hpools
  rw [Nat.mod_eq_of_lt hlt, Nat.mod_eq_of_lt hlt'] at hindex
  exact Prod.ext ((List.idxOf_inj hw).mp hindex) hnumber

variable {w : String × Nat}

theorem workerKey_eq_iff {row : CostRow} (hrow : row ∈ rows)
    (hw : w.1 ∈ internPools rows) :
    workerKey (internPools rows) row = keyOf rows w ↔ belongs w row = true := by
  have htag : row.poolTag ∈ internPools rows := ((internPools_spec rows).2 _).mpr ⟨row, hrow, rfl⟩
  rw [workerKey_eq, belongs, decide_eq_true_eq]
  constructor
  · intro h
    have hsame := keyOf_injective hpools htag hw h
    exact ⟨congrArg Prod.fst hsame, congrArg Prod.snd hsame⟩
  · rintro ⟨htagEq, hnumber⟩
    rw [htagEq, hnumber]

theorem filter_key_eq (hw : w.1 ∈ internPools rows) (id : Nat) :
    (rows.filter fun row => (workerKey (internPools rows) row, row.iterId) = (keyOf rows w, id)) =
      rows.filter fun row => belongs w row && row.iterId = id := by
  refine List.filter_congr fun row hrow => ?_
  rw [Bool.eq_iff_iff, decide_eq_true_eq, Prod.mk.injEq, workerKey_eq_iff hpools hrow hw,
    Bool.and_eq_true, decide_eq_true_eq]

theorem mem_idsOf (hw : w.1 ∈ internPools rows) (id : Nat) :
    id ∈ idsOf rows w ↔ id ∈ iterationIds rows w := by
  simp only [idsOf, iterationIds, List.mem_map, List.mem_filter, List.mem_dedup,
    decide_eq_true_eq, List.mem_toFinset]
  constructor
  · rintro ⟨k, ⟨⟨row, hrow, rfl⟩, hkey⟩, rfl⟩
    exact ⟨row, ⟨hrow, (workerKey_eq_iff hpools hrow hw).mp hkey⟩, rfl⟩
  · rintro ⟨row, ⟨hrow, hbelongs⟩, rfl⟩
    exact ⟨_, ⟨⟨row, hrow, rfl⟩, (workerKey_eq_iff hpools hrow hw).mpr hbelongs⟩, rfl⟩

omit hpools in
theorem nodup_idsOf (rows : List CostRow) (w : String × Nat) : (idsOf rows w).Nodup := by
  refine ((List.nodup_dedup _).filter _).map_on fun k hk k' hk' heq => ?_
  rw [List.mem_filter, decide_eq_true_eq] at hk hk'
  exact Prod.ext (hk.2.trans hk'.2.symm) heq

theorem iterations_of_worker (hw : w.1 ∈ internPools rows) :
    ((iterationsOf rows).filter fun iteration => iteration.worker = keyOf rows w) =
      (idsOf rows w).map fun id => ⟨keyOf rows w, id, iterationTotals rows w id⟩ := by
  rw [iterationsOf, idsOf, List.filter_map, List.map_map]
  refine List.map_congr_left fun k hk => ?_
  have hkey : k.1 = keyOf rows w := of_decide_eq_true (List.mem_filter.mp hk).2
  show (⟨k.1, k.2, summed _⟩ : Iteration) = ⟨keyOf rows w, k.2, iterationTotals rows w k.2⟩
  rw [hkey, iterationTotals, ← filter_key_eq hpools hw, ← hkey]

theorem length_filter_idsOf (hw : w.1 ∈ internPools rows) (q : Nat → Bool) :
    ((idsOf rows w).filter q).length =
      ((iterationIds rows w).filter fun id => q id = true).card := by
  rw [← List.toFinset_card_of_nodup ((nodup_idsOf rows w).filter _)]
  congr 1
  ext id
  rw [List.mem_toFinset, List.mem_filter, mem_idsOf hpools hw, Finset.mem_filter]

theorem length_stratumOf (hw : w.1 ∈ internPools rows) (carries : Bool) :
    (stratumOf (iterationsOf rows) (keyOf rows w) carries).length =
      (stratum rows w carries).card := by
  have hsplit : stratumOf (iterationsOf rows) (keyOf rows w) carries =
      ((iterationsOf rows).filter fun iteration => iteration.worker = keyOf rows w).filter
        fun iteration => carriesPrefill iteration.totals = carries := by
    rw [stratumOf, List.filter_filter]
    refine List.filter_congr fun iteration _ => ?_
    rw [Bool.decide_and, Bool.and_comm]
  rw [hsplit, iterations_of_worker hpools hw, List.filter_map, List.length_map,
    length_filter_idsOf hpools hw, stratum]
  congr 1
  refine Finset.filter_congr fun id _ => ?_
  show decide (carriesPrefill (iterationTotals rows w id) = carries) = true ↔ _
  rw [decide_eq_true_eq, runsPrefill_iff]

/-- Is a worker's iteration drawn from its stratum? -/
def isDrawn (rows : List CostRow) (targets : Targets) (w : String × Nat) (id : Nat) : Bool :=
  let carries := decide (RunsPrefill rows w id)
  drawn targets (stratum rows w carries).card carries id

omit hpools in
theorem mem_stratum {carries : Bool} {id : Nat} : id ∈ stratum rows w carries ↔
      id ∈ iterationIds rows w ∧ decide (RunsPrefill rows w id) = carries := Finset.mem_filter

omit hpools in
theorem mem_draw {targets : Targets} {carries : Bool} {id : Nat} :
    id ∈ draw rows targets w carries ↔ id ∈ stratum rows w carries ∧
      drawn targets (stratum rows w carries).card carries id = true := Finset.mem_filter

theorem sampled_of_worker (hw : w.1 ∈ internPools rows) (targets : Targets)
    (id : Nat) :
    sampled targets (iterationsOf rows) ⟨keyOf rows w, id, iterationTotals rows w id⟩ =
      isDrawn rows targets w id := by
  simp only [sampled, isDrawn, runsPrefill_iff, length_stratumOf hpools hw]

theorem mem_iterationsOf {iteration : Iteration} (h : iteration ∈ iterationsOf rows) :
    ∃ row ∈ rows, iteration.worker = keyOf rows (row.poolTag, row.workerId) ∧
      iteration.totals = iterationTotals rows (row.poolTag, row.workerId) iteration.id := by
  obtain ⟨k, hk, rfl⟩ := List.mem_map.mp h
  obtain ⟨row, hrow, rfl⟩ := List.mem_map.mp (List.mem_dedup.mp hk)
  have htag : row.poolTag ∈ internPools rows := ((internPools_spec rows).2 _).mpr ⟨row, hrow, rfl⟩
  refine ⟨row, hrow, rfl, ?_⟩
  show summed _ = iterationTotals rows (row.poolTag, row.workerId) row.iterId
  rw [iterationTotals, ← filter_key_eq hpools htag, ← workerKey_eq]

/-- The iterations that a sample keeps. -/
def keptOf (rows : List CostRow) (targets : Targets) : List SampledShape :=
  ((iterationsOf rows).filter (sampled targets (iterationsOf rows))).map fun iteration =>
    ⟨iteration.worker, carriesPrefill iteration.totals, iteration.totals⟩

theorem sampledShapes_eq (targets : Targets) (hexact : ∀ w id, (iterationTotals rows w id).Exact) :
    sampledShapes targets (iterationsOf rows) = .ok (keptOf rows targets) := by
  refine mapM_eq_ok_of_forall fun iteration h => ?_
  obtain ⟨row, -, -, htotals⟩ := mem_iterationsOf hpools (List.mem_of_mem_filter h)
  rw [fromTotals_eq (htotals ▸ hexact _ _)]
  rfl

theorem kept_of_worker (hw : w.1 ∈ internPools rows) (targets : Targets) :
    ((keptOf rows targets).filter fun k => k.worker = keyOf rows w) =
      ((idsOf rows w).filter (isDrawn rows targets w)).map fun id =>
        ⟨keyOf rows w, carriesPrefill (iterationTotals rows w id), iterationTotals rows w id⟩ := by
  have hswap : ((iterationsOf rows).filter (sampled targets (iterationsOf rows))).filter
      (fun iteration => iteration.worker = keyOf rows w) =
      ((iterationsOf rows).filter fun iteration => iteration.worker = keyOf rows w).filter
        (sampled targets (iterationsOf rows)) := by
    rw [List.filter_filter, List.filter_filter]
    exact List.filter_congr fun iteration _ => Bool.and_comm _ _
  have hdrawn : (idsOf rows w).filter (isDrawn rows targets w) = (idsOf rows w).filter fun id =>
        sampled targets (iterationsOf rows) ⟨keyOf rows w, id, iterationTotals rows w id⟩ :=
    List.filter_congr fun id _ => (sampled_of_worker hpools hw targets id).symm
  rw [keptOf, List.filter_map, Function.comp_def, hswap, iterations_of_worker hpools hw,
    List.filter_map, List.map_map, hdrawn]
  rfl

theorem countP_drawn (hw : w.1 ∈ internPools rows) (targets : Targets)
    {q : Nat → Bool} {carries : Bool} (hq : ∀ id, q id → decide (RunsPrefill rows w id) = carries) :
    ((idsOf rows w).filter (isDrawn rows targets w)).countP q =
      ((draw rows targets w carries).filter fun id => q id = true).card := by
  rw [List.countP_eq_length_filter, List.filter_filter, length_filter_idsOf hpools hw]
  congr 1
  ext id
  rw [Finset.mem_filter, Finset.mem_filter, mem_draw, mem_stratum, Bool.and_eq_true, isDrawn]
  constructor
  · rintro ⟨hid, hqid, hdrawn⟩
    simp only [hq id hqid] at hdrawn
    exact ⟨⟨⟨hid, hq id hqid⟩, hdrawn⟩, hqid⟩
  · rintro ⟨⟨⟨hid, hcarries⟩, hdrawn⟩, hqid⟩
    refine ⟨hid, hqid, ?_⟩
    simp only [hcarries]
    exact hdrawn

/-! ## Accounted iterations -/

/-- Is every worker's sample accounted for? -/
def AccountsForAll (rows : List CostRow) (targets : Targets) : Prop :=
  ∃ samples, collectWorkloadShapesByWorker rows targets = .ok samples ∧
    ∀ row ∈ rows, ∃ sample, Accounted rows targets samples (row.poolTag, row.workerId) sample

theorem collect_eq (hrows : Readable rows) (targets : Targets) :
    collectWorkloadShapesByWorker rows targets =
      .ok (((keptOf rows targets).map SampledShape.worker).dedup.map fun worker =>
        (((internPools rows).getD worker.1 "", worker.2),
          workerSample targets (iterationsOf rows) (keptOf rows targets) worker)) := by
  rw [collectWorkloadShapesByWorker, totalsByIteration_eq hrows]
  show ((sampledShapes targets (iterationsOf rows)).bind _) = _
  rw [sampledShapes_eq hpools targets hrows.exact]
  rfl

omit hpools in
/-- Looking a name up in a table whose keys have their own names. -/
theorem lookup_map_named {κ ν σ : Type} [BEq κ] [LawfulBEq κ] [BEq ν]
    [LawfulBEq ν] {ks : List κ} {name : κ → ν} {f : κ → σ} {key : κ} {n : ν}
    (h : ∀ k ∈ ks, name k = n ↔ k = key) :
    (ks.map fun k => (name k, f k)).lookup n = if key ∈ ks then some (f key) else none := by
  induction ks with
  | nil => rfl
  | cons k ks ih =>
    have hrest := ih fun k' hk' => h k' (List.mem_cons_of_mem _ hk')
    have hhead := h k List.mem_cons_self
    rw [List.map_cons, List.lookup_cons, hrest]
    by_cases hk : k = key
    · subst hk
      rw [if_pos List.mem_cons_self, hhead.mpr rfl, beq_self_eq_true]
    · have hn : (n == name k) = false := beq_eq_false_iff_ne.mpr fun hn => hk (hhead.mp hn.symm)
      rw [hn]
      simp [List.mem_cons, Ne.symm hk]

theorem name_keyOf (hw : w.1 ∈ internPools rows) :
    ((internPools rows).getD (keyOf rows w).1 "", (keyOf rows w).2) = w := by
  have hlt := List.idxOf_lt_length_of_mem hw
  show ((internPools rows).getD ((internPools rows).idxOf w.1 % 2 ^ 16) "", w.2) = w
  rw [Nat.mod_eq_of_lt (hlt.trans_le hpools), List.getD_eq_getElem _ _ hlt, List.getElem_idxOf hlt]

theorem lookup_sample (hw : w.1 ∈ internPools rows) (targets : Targets) :
    (((keptOf rows targets).map SampledShape.worker).dedup.map fun worker =>
      (((internPools rows).getD worker.1 "", worker.2),
        workerSample targets (iterationsOf rows) (keptOf rows targets) worker)).lookup w =
      if keyOf rows w ∈ ((keptOf rows targets).map SampledShape.worker).dedup then
        some (workerSample targets (iterationsOf rows) (keptOf rows targets) (keyOf rows w))
      else none := by
  have hnames : ∀ key ∈ ((keptOf rows targets).map SampledShape.worker).dedup,
      ((internPools rows).getD key.1 "", key.2) = w ↔ key = keyOf rows w := by
    intro key hkey
    obtain ⟨k, hk, rfl⟩ := List.mem_map.mp (List.mem_dedup.mp hkey)
    obtain ⟨iteration, hiteration, rfl⟩ := List.mem_map.mp hk
    obtain ⟨row, hrow, hworker, -⟩ := mem_iterationsOf hpools (List.mem_of_mem_filter hiteration)
    have htag : row.poolTag ∈ internPools rows := ((internPools_spec rows).2 _).mpr ⟨row, hrow, rfl⟩
    show _ ↔ iteration.worker = _
    rw [hworker, name_keyOf hpools htag]
    constructor
    · exact fun h => by rw [h]
    · exact fun h => keyOf_injective hpools htag hw h
  exact lookup_map_named hnames

/-- The sample of a worker. -/
def sampleOf (rows : List CostRow) (targets : Targets) (w : String × Nat) : WorkerShapeSample :=
  workerSample targets (iterationsOf rows) (keptOf rows targets) (keyOf rows w)

theorem countP_carries (hw : w.1 ∈ internPools rows) (targets : Targets)
    (carries : Bool) :
    ((idsOf rows w).filter (isDrawn rows targets w)).countP
      (fun id => carriesPrefill (iterationTotals rows w id) = carries) =
        (draw rows targets w carries).card := by
  have hq : ∀ id, decide (carriesPrefill (iterationTotals rows w id) = carries) = true →
      decide (RunsPrefill rows w id) = carries := fun id h => by
    rw [← runsPrefill_iff]
    exact of_decide_eq_true h
  rw [countP_drawn hpools hw targets hq]
  congr 1
  refine Finset.filter_true_of_mem fun id hid => decide_eq_true ?_
  rw [runsPrefill_iff]
  exact (mem_stratum.mp (mem_draw.mp hid).1).2

theorem countP_shape (hw : w.1 ∈ internPools rows) (targets : Targets)
    (shape : WorkloadTotals) :
    ((idsOf rows w).filter (isDrawn rows targets w)).countP
      (fun id => iterationTotals rows w id = shape) =
        ((draw rows targets w (carriesPrefill shape)).filter fun id =>
          iterationTotals rows w id = shape).card := by
  have hq : ∀ id, decide (iterationTotals rows w id = shape) = true →
      decide (RunsPrefill rows w id) = carriesPrefill shape := fun id h => by
    rw [← runsPrefill_iff, of_decide_eq_true h]
  rw [countP_drawn hpools hw targets hq]
  congr 1
  exact Finset.filter_congr fun id _ => decide_eq_true_iff

theorem draw_nonempty_of_shape (hw : w.1 ∈ internPools rows)
    {targets : Targets} {shape : WeightedWorkload}
    (hshape : shape ∈ (sampleOf rows targets w).shapes) :
    (draw rows targets w (carriesPrefill shape.totals)).Nonempty := by
  have hspec := (workerSample_spec targets (iterationsOf rows)
    (kept_of_worker hpools hw targets) (carriesPrefill shape.totals)).2 shape hshape rfl
  rw [countP_carries hpools hw] at hspec
  exact Finset.card_pos.mp hspec.1

theorem sum_stratum (hw : w.1 ∈ internPools rows) {targets : Targets}
    {carries : Bool}
    (hdraw : (stratum rows w carries).Nonempty → (draw rows targets w carries).Nonempty) :
    (((sampleOf rows targets w).shapes.filter fun shape =>
      carriesPrefill shape.totals = carries).map WeightedWorkload.occurrences).sum =
        (stratum rows w carries).card := by
  rcases (stratum rows w carries).eq_empty_or_nonempty with hempty | hnonempty
  · have hnone : ((sampleOf rows targets w).shapes.filter fun shape =>
        carriesPrefill shape.totals = carries) = [] := by
      refine List.filter_eq_nil_iff.mpr fun shape hshape hcarries => ?_
      obtain ⟨id, hid⟩ := draw_nonempty_of_shape hpools hw hshape
      rw [of_decide_eq_true hcarries] at hid
      have hin := (mem_draw.mp hid).1
      rw [hempty] at hin
      exact Finset.notMem_empty id hin
    rw [hnone, hempty]
    rfl
  · have hspec := (workerSample_spec targets (iterationsOf rows)
      (kept_of_worker hpools hw targets) carries).1
    rw [countP_carries hpools hw, length_stratumOf hpools hw] at hspec
    exact hspec (Finset.card_pos.mpr (hdraw hnonempty))

omit hpools in
theorem card_strata (rows : List CostRow) (w : String × Nat) :
    (stratum rows w false).card + (stratum rows w true).card = (iterationIds rows w).card := by
  have hnot : stratum rows w false =
      (iterationIds rows w).filter fun id => ¬decide (RunsPrefill rows w id) = true := by
    ext id
    rw [mem_stratum, Finset.mem_filter, Bool.not_eq_true]
  rw [hnot, add_comm]
  exact Finset.card_filter_add_card_filter_not _

omit hpools in
theorem sum_split (shapes : List WeightedWorkload) : (shapes.map WeightedWorkload.occurrences).sum =
      ((shapes.filter fun shape => carriesPrefill shape.totals = false).map
        WeightedWorkload.occurrences).sum +
      ((shapes.filter fun shape => carriesPrefill shape.totals = true).map
        WeightedWorkload.occurrences).sum := by
  induction shapes with
  | nil => rfl
  | cons shape shapes ih =>
    rw [List.map_cons, List.sum_cons, ih, List.filter_cons, List.filter_cons]
    cases carriesPrefill shape.totals with
    | false =>
      show _ = shape.occurrences + _ + _
      rw [Nat.add_assoc]
      rfl
    | true =>
      show _ = _ + (shape.occurrences + _)
      rw [Nat.add_left_comm]
      rfl

theorem accounted {targets : Targets} {row : CostRow} (hrow : row ∈ rows)
    (hdraw : ∀ carries, (stratum rows (row.poolTag, row.workerId) carries).Nonempty →
      (draw rows targets (row.poolTag, row.workerId) carries).Nonempty) :
    Accounted rows targets
      (((keptOf rows targets).map SampledShape.worker).dedup.map fun worker =>
        (((internPools rows).getD worker.1 "", worker.2),
          workerSample targets (iterationsOf rows) (keptOf rows targets) worker))
      (row.poolTag, row.workerId) (sampleOf rows targets (row.poolTag, row.workerId)) := by
  set w := (row.poolTag, row.workerId) with hwdef
  have hw : w.1 ∈ internPools rows := ((internPools_spec rows).2 _).mpr ⟨row, hrow, rfl⟩
  have hid : row.iterId ∈ iterationIds rows w :=
    List.mem_toFinset.mpr (List.mem_map_of_mem (List.mem_filter.mpr ⟨hrow, belongs_self row⟩))
  have hiterations : (sampleOf rows targets w).iterations = (iterationIds rows w).card := by
    show (iterationsOf rows).countP (fun iteration => iteration.worker = keyOf rows w) = _
    rw [List.countP_eq_length_filter, iterations_of_worker hpools hw, List.length_map,
      ← List.toFinset_card_of_nodup (nodup_idsOf rows w)]
    congr 1
    ext id
    rw [List.mem_toFinset, mem_idsOf hpools hw]
  refine ⟨?_, hiterations, ?_, fun carries => sum_stratum hpools hw (hdraw carries), ?_⟩
  · -- the stratum of any iteration has one that is drawn
    obtain ⟨id, hdrawn⟩ := hdraw _ ⟨row.iterId, mem_stratum.mpr ⟨hid, rfl⟩⟩
    obtain ⟨hin, hdrawn⟩ := mem_draw.mp hdrawn
    obtain ⟨hid', hcarries⟩ := mem_stratum.mp hin
    have hkept : id ∈ (idsOf rows w).filter (isDrawn rows targets w) := by
      refine List.mem_filter.mpr ⟨(mem_idsOf hpools hw id).mpr hid', ?_⟩
      simp only [isDrawn, hcarries]
      exact hdrawn
    have hmem := List.mem_map_of_mem (f := fun id =>
      (⟨keyOf rows w, carriesPrefill (iterationTotals rows w id), iterationTotals rows w id⟩ :
        SampledShape)) hkept
    rw [← kept_of_worker hpools hw targets] at hmem
    have hworker : keyOf rows w ∈ (keptOf rows targets).map SampledShape.worker :=
      List.mem_map.mpr ⟨_, List.mem_of_mem_filter hmem, rfl⟩
    rw [lookup_sample hpools hw, if_pos (List.mem_dedup.mpr hworker)]
    rfl
  · rw [sum_split, sum_stratum hpools hw (hdraw false), sum_stratum hpools hw (hdraw true),
      card_strata, hiterations]
  · intro shape hshape carries kept
    obtain ⟨hpos, hbelow, habove⟩ := (workerSample_spec targets
      (iterationsOf rows) (kept_of_worker hpools hw targets)
      (carriesPrefill shape.totals)).2 shape hshape rfl
    rw [countP_carries hpools hw, countP_shape hpools hw, length_stratumOf hpools hw]
      at hbelow habove
    rw [countP_carries hpools hw] at hpos
    have hpos' : (0 : ℚ) < (draw rows targets w carries).card := Nat.cast_pos.mpr hpos
    have hbelow' : (shape.occurrences : ℚ) * (draw rows targets w carries).card <
        kept.card * (stratum rows w carries).card + (draw rows targets w carries).card := by
      exact_mod_cast hbelow
    have habove' : (kept.card : ℚ) * (stratum rows w carries).card <
        shape.occurrences * (draw rows targets w carries).card +
          (draw rows targets w carries).card := by
      exact_mod_cast habove
    rw [abs_sub_lt_iff]
    constructor
    · rw [sub_lt_iff_lt_add, ← div_self hpos'.ne', ← add_div, lt_div_iff₀ hpos', add_comm]
      exact hbelow'
    · rw [sub_lt_iff_lt_add, div_lt_iff₀ hpos', add_mul, one_mul, add_comm]
      exact habove'

theorem draws_of_accounts (hrows : Readable rows) {targets : Targets}
    (h : AccountsForAll rows targets) {row : CostRow} (hrow : row ∈ rows) {carries : Bool}
    (hstratum : (stratum rows (row.poolTag, row.workerId) carries).Nonempty) :
    (draw rows targets (row.poolTag, row.workerId) carries).Nonempty := by
  obtain ⟨samples, hsamples, haccounts⟩ := h
  obtain ⟨sample, haccounted⟩ := haccounts row hrow
  have hw : row.poolTag ∈ internPools rows := ((internPools_spec rows).2 _).mpr ⟨row, hrow, rfl⟩
  rw [collect_eq hpools hrows, Except.ok.injEq] at hsamples
  have hfound := haccounted.found
  rw [← hsamples, lookup_sample hpools hw] at hfound
  split at hfound
  · obtain rfl : sampleOf rows targets (row.poolTag, row.workerId) = sample :=
      Option.some.inj hfound
    -- weights that add up to something are some shape's
    have hsum := (haccounted.strata carries).trans_ne (Finset.card_pos.mpr hstratum).ne'
    have hsome : ((sampleOf rows targets (row.poolTag, row.workerId)).shapes.filter fun shape =>
        carriesPrefill shape.totals = carries) ≠ [] := fun hnil => hsum (by rw [hnil]; rfl)
    obtain ⟨shape, hshape⟩ := List.exists_mem_of_ne_nil _ hsome
    obtain ⟨hshape, hcarries⟩ := List.mem_filter.mp hshape
    have hsame : carriesPrefill shape.totals = carries := of_decide_eq_true hcarries
    rw [← hsame]
    exact draw_nonempty_of_shape hpools hw hshape
  · cases hfound

omit hpools in
/-- What finds a sample of every worker has no more pools than indices. -/
theorem pools_of_accounts {targets : Targets} (h : AccountsForAll rows targets) :
    (internPools rows).length ≤ 2 ^ 16 := by
  obtain ⟨samples, hsamples, haccounts⟩ := h
  simp only [collectWorkloadShapesByWorker, bind_eq_ok_iff] at hsamples
  obtain ⟨iterations, hiterations, kept, hkept, hsamples⟩ := hsamples
  rw [Except.ok.injEq] at hsamples
  have hindex : ∀ k ∈ kept, k.worker.1 < 2 ^ 16 := by
    intro k hk
    obtain ⟨iteration, hiteration, hshape⟩ := exists_mem_of_mapM hkept hk
    obtain ⟨shape, -, hshape⟩ := bind_eq_ok_iff.mp hshape
    obtain ⟨read, -, hiterations⟩ := bind_eq_ok_iff.mp hiterations
    obtain ⟨key, hkey, htotals⟩ :=
      exists_mem_of_mapM hiterations (List.mem_of_mem_filter hiteration)
    obtain ⟨totals, -, htotals⟩ := bind_eq_ok_iff.mp htotals
    obtain ⟨row, -, rfl⟩ := List.mem_map.mp (List.mem_dedup.mp hkey)
    rw [← Except.ok.inj hshape, ← Except.ok.inj htotals]
    exact Nat.mod_lt _ (by omega)
  by_contra hmany
  rw [not_le] at hmany
  -- the first pool whose index is taken for another
  obtain ⟨row, hrow, htag⟩ := ((internPools_spec rows).2 _).mp (List.getElem_mem hmany)
  obtain ⟨sample, haccounted⟩ := haccounts row hrow
  obtain ⟨before, after, hfound, -⟩ := List.lookup_eq_some_iff.mp haccounted.found
  have hentry : ((row.poolTag, row.workerId), sample) ∈ samples := by
    rw [hfound]
    exact List.mem_append_right _ List.mem_cons_self
  rw [← hsamples] at hentry
  obtain ⟨worker, hworker, hentry⟩ := List.mem_map.mp hentry
  obtain ⟨k, hk, rfl⟩ := List.mem_map.mp (List.mem_dedup.mp hworker)
  have hlt := hindex k hk
  have hname : (internPools rows).getD k.worker.1 "" = row.poolTag :=
    congrArg (fun entry => entry.1.1) hentry
  rw [List.getD_eq_getElem _ _ (hlt.trans hmany), htag] at hname
  exact hlt.ne ((internPools_spec rows).1.getElem_inj_iff.mp hname)

end run

/-- A sample accounts for every iteration exactly when a pool's index fits its sixteen bits
and something is drawn of every stratum that has something. -/
theorem shape_sampling {rows : List CostRow} (hrows : Readable rows) (targets : Targets) :
    AccountsForAll rows targets ↔ (rows.map CostRow.poolTag).toFinset.card ≤ 2 ^ 16 ∧
      ∀ row ∈ rows, ∀ carries, (stratum rows (row.poolTag, row.workerId) carries).Nonempty →
        (draw rows targets (row.poolTag, row.workerId) carries).Nonempty := by
  rw [← length_internPools]
  constructor
  · intro h
    have hpools := pools_of_accounts h
    exact ⟨hpools, fun row hrow carries => draws_of_accounts hpools hrows h hrow⟩
  · rintro ⟨hpools, hdraws⟩
    exact ⟨_, collect_eq hpools hrows targets, fun row hrow =>
      ⟨_, accounted hpools hrow (hdraws row hrow)⟩⟩

/-! ## A worker's log -/

/-- A prefill iteration, and decode-only ones of some numbers. -/
def workerLog (decodeIds : List Nat) : List CostRow :=
  ⟨"prefill", 0, 0, [⟨4, 4, 0, 0, some [0], some [4], none, none⟩]⟩ ::
    decodeIds.map fun id => ⟨"prefill", 0, id, [⟨1, 0, 1, 4 + id, none, none, none, none⟩]⟩

instance (totals : WorkloadTotals) : Decidable totals.Exact :=
  decidable_of_iff _ ⟨fun h => WorkloadTotals.Exact.mk h.1 h.2, fun h => And.intro h.1 h.2⟩

theorem readable_of_sublists {rows : List CostRow} (hids : ∀ row ∈ rows, row.iterId < 2 ^ 53)
    (hconsistent : ∀ row ∈ rows, ∀ g ∈ row.groups, g.decodeKvLens = none)
    (hexact : ∀ part ∈ rows.sublists, (summed part).Exact) : Readable rows := by
  refine ⟨hids, fun row hrow g hg kvLens h => ?_, fun _ _ => hexact _ ?_⟩
  · rw [hconsistent row hrow g hg] at h
    cases h
  · exact List.mem_sublists.mpr List.filter_sublist

/-- Of three decode-only iterations, the one whose number is a multiple of the stride stands
for all. -/
theorem shape_sampling_log : AccountsForAll (workerLog [1, 2, 3]) ⟨1, 1⟩ :=
  (shape_sampling (readable_of_sublists (by decide +kernel) (by decide +kernel) (by decide +kernel))
    ⟨1, 1⟩).mpr ⟨by decide +kernel, by decide +kernel⟩

/-- Where no number is a multiple of the stride, the decode-only iterations are lost. -/
theorem empty_draw :
    Readable (workerLog [1, 2, 4]) ∧ ¬AccountsForAll (workerLog [1, 2, 4]) ⟨1, 1⟩ := by
  have hrows : Readable (workerLog [1, 2, 4]) :=
    readable_of_sublists (by decide +kernel) (by decide +kernel) (by decide +kernel)
  refine ⟨hrows, fun h => ?_⟩
  have hdraw := draws_of_accounts (pools_of_accounts h) hrows h List.mem_cons_self
    (show (stratum (workerLog [1, 2, 4]) ("prefill", 0) false).Nonempty by decide +kernel)
  have hnone : draw (workerLog [1, 2, 4]) ⟨1, 1⟩ ("prefill", 0) false = ∅ := by decide +kernel
  exact Finset.not_nonempty_empty (hnone ▸ hdraw)

end ShapeSampling

end ServingSim
