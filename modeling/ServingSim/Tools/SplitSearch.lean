import ServingSim.Lib.MinMaxSplit
import ServingSim.Tools.LayerBalance

/-
  The recommended pipeline split.

  The program's table is the recursion on the last stage, and the search lists the first
  splits of the recursion on the first stages; both read the memo table, which holds fresh
  costs. The list is cut at a cap, in lexicographic order, so the recommendation is a split
  of the smallest bottleneck exactly when one stands before the cut, or the split in use
  ties.

  What is proved:
    1. `layer_balance` — the same, counting the splits before the best.
-/

namespace ServingSim

namespace LayerBalance

open MinMaxSplit

/-! ## The dynamic program -/

section search

variable {fnmatch : String → String → Bool} {problem : Problem}

/-- The memo table holds fresh costs. -/
def Recalls (fnmatch : String → String → Bool) (problem : Problem) (seg : Problem.Memo) : Prop :=
  ∀ key c, seg.lookup key = some c → c = problem.weight fnmatch key

theorem segment_spec {seg : Problem.Memo} (h : Recalls fnmatch problem seg)
    (key : Nat × Nat × Nat) :
    (problem.segment fnmatch key seg).1 = problem.weight fnmatch key ∧
      Recalls fnmatch problem (problem.segment fnmatch key seg).2 := by
  cases hlookup : seg.lookup key with
  | some c =>
    simp only [Problem.segment, hlookup]
    exact ⟨h key c hlookup, h⟩
  | none =>
    simp only [Problem.segment, hlookup, true_and]
    intro key' c hc
    rw [List.lookup_cons] at hc
    split at hc
    · next heq =>
      rw [eq_of_beq heq]
      exact (Option.some.inj hc).symm
    · exact h key' c hc

theorem cell_spec {before : List (WithTop ℚ)} {i hi : Nat} {seg : Problem.Memo}
    (h : Recalls fnmatch problem seg)
    (hbefore : ∀ lo < hi, before.getD lo ⊤ = best (problem.weight fnmatch) 0 i lo) :
    (problem.cell fnmatch before i hi seg).1 = best (problem.weight fnmatch) 0 (i + 1) hi ∧
      Recalls fnmatch problem (problem.cell fnmatch before i hi seg).2 := by
  have hfold : ∀ (los : List Nat) (acc : WithTop ℚ) (seg : Problem.Memo), (∀ lo ∈ los, lo < hi) →
      Recalls fnmatch problem seg →
      let after := los.foldl (fun state lo =>
        let reached := before.getD lo ⊤
        if reached = ⊤ then state
        else
          let found := problem.segment fnmatch (lo, hi, i) state.2
          (min state.1 (max reached found.1), found.2)) (acc, seg)
      after.1 = (los.map fun lo => max (best (problem.weight fnmatch) 0 i lo)
          (problem.weight fnmatch (lo, hi, i))).foldl min acc ∧
        Recalls fnmatch problem after.2 := by
    intro los
    induction los with
    | nil => exact fun acc seg _ h => ⟨rfl, h⟩
    | cons lo los ih =>
      intro acc seg hlt h
      obtain ⟨hlo, hlos⟩ := List.forall_mem_cons.mp hlt
      rw [List.foldl_cons, List.map_cons, List.foldl_cons]
      by_cases hreached : before.getD lo ⊤ = ⊤
      · rw [if_pos hreached, ← hbefore lo hlo, hreached, max_eq_left le_top, min_eq_left le_top]
        exact ih acc seg hlos h
      · obtain ⟨hcost, hseg⟩ := segment_spec h (lo, hi, i)
        rw [if_neg hreached]
        obtain ⟨hmin, hrecalls⟩ := ih (min acc (max (before.getD lo ⊤)
          (problem.segment fnmatch (lo, hi, i) seg).1)) _ hlos hseg
        refine ⟨hmin.trans ?_, hrecalls⟩
        rw [hcost, hbefore lo hlo]
  refine hfold _ ⊤ seg (fun lo hlo => ?_) h
  have := List.mem_range'_1.mp hlo
  omega

theorem getD_set {values : List (WithTop ℚ)} {j k : Nat} {value : WithTop ℚ}
    (hj : j < values.length) :
    (values.set j value).getD k ⊤ = if k = j then value else values.getD k ⊤ := by
  rw [List.getD_eq_getElem?_getD, List.getD_eq_getElem?_getD, List.getElem?_set]
  by_cases hk : k = j
  · subst hk
    rw [if_pos rfl, if_pos hj, if_pos rfl]
    rfl
  · rw [if_neg (Ne.symm hk), if_neg hk]

theorem getD_replicate_top (n k : Nat) : (List.replicate n (⊤ : WithTop ℚ)).getD k ⊤ = ⊤ := by
  rw [List.getD_eq_getElem?_getD, List.getElem?_replicate]
  split
  · rfl
  · rfl

theorem row_spec {before : List (WithTop ℚ)} {i : Nat} {seg : Problem.Memo}
    (h : Recalls fnmatch problem seg)
    (hbefore : ∀ lo ≤ problem.numLayers, before.getD lo ⊤ = best (problem.weight fnmatch) 0 i lo) :
    (∀ hi ≤ problem.numLayers, (problem.row fnmatch before i seg).1.getD hi ⊤ =
        best (problem.weight fnmatch) 0 (i + 1) hi) ∧
      Recalls fnmatch problem (problem.row fnmatch before i seg).2 := by
  have hfold : ∀ m, i + m ≤ problem.numLayers ∨ m = 0 →
      let after := (List.range' (i + 1) m).foldl (fun state hi =>
        let found := problem.cell fnmatch before i hi state.2
        (state.1.set hi found.1, found.2)) (List.replicate (problem.numLayers + 1) ⊤, seg)
      after.1.length = problem.numLayers + 1 ∧
        (∀ k ≤ i + m, after.1.getD k ⊤ = best (problem.weight fnmatch) 0 (i + 1) k) ∧
        Recalls fnmatch problem after.2 := by
    intro m
    induction m with
    | zero =>
      intro _
      refine ⟨List.length_replicate, fun k hk => ?_, h⟩
      have hempty : k - i = 0 := by omega
      rw [best, hempty]
      exact getD_replicate_top _ k
    | succ m ih =>
      intro hm
      have hm' : i + (m + 1) ≤ problem.numLayers := by omega
      obtain ⟨hlength, hcells, hseg⟩ := ih (.inl (by omega))
      rw [List.range'_1_concat, List.foldl_append]
      obtain ⟨hcell, hseg'⟩ := @cell_spec fnmatch problem before i (i + 1 + m) _ hseg
        fun lo hlo => hbefore lo (by omega)
      refine ⟨by rw [List.foldl_cons, List.foldl_nil, List.length_set, hlength], fun k hk => ?_,
        hseg'⟩
      rw [List.foldl_cons, List.foldl_nil, getD_set (by rw [hlength]; omega)]
      by_cases hlast : k = i + 1 + m
      · rw [if_pos hlast, hcell, hlast]
      · rw [if_neg hlast]
        exact hcells k (by omega)
  obtain ⟨-, hcells, hseg⟩ := hfold (problem.numLayers - i) (by omega)
  exact ⟨fun hi hhi => hcells hi (by omega), hseg⟩

theorem table_spec (i : Nat) : (∀ hi ≤ problem.numLayers, (problem.table fnmatch i).1.getD hi ⊤ =
        best (problem.weight fnmatch) 0 i hi) ∧
      Recalls fnmatch problem (problem.table fnmatch i).2 := by
  induction i with
  | zero =>
    refine ⟨fun hi _ => ?_, fun key c h => by cases h⟩
    rw [Problem.table, getD_set (by rw [List.length_replicate]; omega), getD_replicate_top]
    rfl
  | succ i ih => exact row_spec ih.2 ih.1

/-! ## The list -/

/-- What is noted of a split. -/
def record (fnmatch : String → String → Bool) (problem : Problem) (sizes : List Nat) :
    Problem.Found where
  worst := (worst (problem.weight fnmatch) 0 sizes).untopD 0
  sq := ((segments 0 0 sizes).map fun segment =>
    (problem.weight fnmatch segment).untopD 0 * (problem.weight fnmatch segment).untopD 0).sum
  sizes := sizes

theorem take_append_of_take {β : Type} (N : Nat) (xs ys : List β) :
    (xs.take N ++ ys).take N = (xs ++ ys).take N := by
  rw [List.take_append, List.take_append, List.take_take, min_self, List.length_take]
  congr 2
  omega

theorem record_concat (sizes : List Nat) (size : Nat) {c : ℚ}
    (hc : problem.weight fnmatch (sizes.sum, sizes.sum + size, sizes.length) = c) :
    (record fnmatch problem (sizes ++ [size])).sq = (record fnmatch problem sizes).sq + c * c := by
  have hsegments : segments 0 0 (sizes ++ [size]) =
      segments 0 0 sizes ++ [(sizes.sum, sizes.sum + size, sizes.length)] := by
    rw [segments_append, Nat.zero_add, Nat.zero_add]
    rfl
  rw [record, hsegments, List.map_append, List.sum_append, List.map_singleton, List.sum_singleton,
    hc, WithTop.untopD_coe]
  rfl

theorem dfs_spec {bound : ℚ} {rest lo : Nat} {sizes : List Nat} {heaviest sq : ℚ}
    {state : Problem.Listing} (hrest : sizes.length + rest = problem.pp) (hlo : lo = sizes.sum)
    (hworst : (heaviest : WithTop ℚ) = worst (problem.weight fnmatch) 0 sizes)
    (hsq : sq = (record fnmatch problem sizes).sq) (hseg : Recalls fnmatch problem state.seg)
    (hcap : state.found.length ≤ maxSplits) :
    let after := problem.dfs fnmatch bound rest lo sizes heaviest sq state
    after.found = (state.found ++ (completions (problem.weight fnmatch) problem.numLayers
        (bound : WithTop ℚ) rest sizes).map (record fnmatch problem)).take maxSplits ∧
      Recalls fnmatch problem after.seg := by
  induction rest generalizing lo sizes heaviest sq state with
  | zero =>
    by_cases hfull : maxSplits ≤ state.found.length
    · rw [Problem.dfs, if_pos hfull]
      exact ⟨(List.take_append_of_le_length hfull).symm ▸ (List.take_of_length_le hcap).symm, hseg⟩
    · rw [Problem.dfs, if_neg hfull, completions]
      subst hlo
      by_cases hsum : sizes.sum = problem.numLayers
      · have hrecord : (⟨heaviest, sq, sizes⟩ : Problem.Found) = record fnmatch problem sizes := by
          rw [hsq, record, ← hworst]
          rfl
        rw [if_pos hsum, if_pos hsum, hrecord]
        refine ⟨(List.take_of_length_le ?_).symm, hseg⟩
        rw [List.length_append, List.length_singleton]
        omega
      · rw [if_neg hsum, if_neg hsum, List.map_nil, List.append_nil]
        exact ⟨(List.take_of_length_le hcap).symm, hseg⟩
  | succ rest ih =>
    by_cases hfull : maxSplits ≤ state.found.length
    · rw [Problem.dfs, if_pos hfull]
      exact ⟨(List.take_append_of_le_length hfull).symm ▸ (List.take_of_length_le hcap).symm, hseg⟩
    · rw [Problem.dfs, if_neg hfull, completions]
      subst hlo
      have hindex : problem.pp - (rest + 1) = sizes.length := by omega
      rw [hindex]
      -- the loop over the next cut: each branch within the bound lists its completions in turn
      have hfold : ∀ (his : List Nat) (state : Problem.Listing), (∀ hi ∈ his, sizes.sum < hi) →
          Recalls fnmatch problem state.seg → state.found.length ≤ maxSplits →
          let after := his.foldl (fun state hi =>
            let entry := problem.segment fnmatch (sizes.sum, hi, sizes.length) state.seg
            let state := { state with seg := entry.2 }
            if entry.1 ≤ (bound : WithTop ℚ) then
              let c := entry.1.untopD 0
              problem.dfs fnmatch bound rest hi (sizes ++ [hi - sizes.sum]) (max heaviest c)
                (sq + c * c) state
            else state) state
          after.found = (state.found ++ (his.flatMap fun hi =>
              if problem.weight fnmatch (sizes.sum, hi, sizes.length) ≤ (bound : WithTop ℚ) then
                completions (problem.weight fnmatch) problem.numLayers (bound : WithTop ℚ) rest
                  (sizes ++ [hi - sizes.sum])
              else []).map (record fnmatch problem)).take maxSplits ∧
            Recalls fnmatch problem after.seg := by
        intro his
        induction his with
        | nil =>
          intro state _ hseg hcap
          refine ⟨?_, hseg⟩
          rw [List.flatMap_nil, List.map_nil, List.append_nil]
          exact (List.take_of_length_le hcap).symm
        | cons hi his ihis =>
          intro state hlt hseg hcap
          obtain ⟨hhi, hhis⟩ := List.forall_mem_cons.mp hlt
          rw [List.foldl_cons, List.flatMap_cons, List.map_append, ← List.append_assoc]
          obtain ⟨hcost, hseg'⟩ := segment_spec hseg (sizes.sum, hi, sizes.length)
          have hback : sizes.sum + (hi - sizes.sum) = hi := by omega
          by_cases hweight : problem.weight fnmatch
              (sizes.sum, hi, sizes.length) ≤ (bound : WithTop ℚ)
          · obtain ⟨c, hc⟩ := WithTop.ne_top_iff_exists.mp
              (hweight.trans_lt (WithTop.coe_lt_top bound)).ne
            have hsum : hi = (sizes ++ [hi - sizes.sum]).sum := by
              rw [List.sum_append, List.sum_singleton, hback]
            obtain ⟨hfound, hrecalls⟩ := @ih hi (sizes ++ [hi - sizes.sum]) (max heaviest c)
              (sq + c * c)
              ⟨state.found, (problem.segment fnmatch (sizes.sum, hi, sizes.length) state.seg).2⟩
              (by rw [List.length_append, List.length_singleton]; omega) hsum
              (by rw [worst_concat, hback, ← hworst, ← hc]; exact WithTop.coe_max _ _)
              (by rw [record_concat _ _ (by rw [hback]; exact hc.symm), hsq]) hseg' hcap
            rw [if_pos hweight]
            simp only [hcost, if_pos hweight]
            rw [← hc, WithTop.untopD_coe]
            obtain ⟨hothers, hrecalls'⟩ := ihis _ hhis hrecalls (by
              rw [hfound]
              exact List.length_take_le _ _)
            refine ⟨hothers.trans ?_, hrecalls'⟩
            rw [hfound, take_append_of_take]
          · rw [if_neg hweight, List.map_nil, List.append_nil]
            simp only [hcost, if_neg hweight]
            exact ihis ⟨state.found, _⟩ hhis hseg' hcap
      exact hfold _ state (fun hi hhi => (List.mem_range'_1.mp hhi).1) hseg hcap

/-! ## Splits and their bottlenecks -/

/-- A split of all layers whose stages have what they need. -/
def FeasibleSplit (fnmatch : String → String → Bool) (problem : Problem) (sizes : List Nat) :
    Prop :=
  IsSplit problem.numLayers problem.pp sizes ∧ problem.allFeasible fnmatch sizes

def bottleneck (problem : Problem) (sizes : List Nat) : ℚ :=
  Problem.pyMax (problem.stageCosts sizes)

theorem segments_eq (lo i : Nat) (sizes : List Nat) : segments lo i sizes =
      ((rangesFrom lo sizes).zipIdx i).map fun e => (e.1.1, e.1.2, e.2) := by
  induction sizes generalizing lo i with
  | nil => rfl
  | cons size sizes ih => rw [segments, ih, rangesFrom, List.zipIdx_cons, List.map_cons]

theorem stageCosts_eq (sizes : List Nat) : problem.stageCosts sizes =
      (segments 0 0 sizes).map fun segment => problem.cost segment.1 segment.2.1 segment.2.2 := by
  rw [segments_eq, List.map_map]
  rfl

theorem allFeasible_iff {sizes : List Nat} : problem.allFeasible fnmatch sizes = true ↔
      ∀ segment ∈ segments 0 0 sizes, problem.feasible fnmatch segment.1 segment.2.1 = true := by
  rw [segments_eq, List.forall_mem_map, Problem.allFeasible, List.all_eq_true]
  constructor
  · exact fun h e he => h e.1 (List.fst_mem_of_mem_zipIdx he)
  · intro h range hrange
    obtain ⟨i, hi, rfl⟩ := List.mem_iff_getElem.mp hrange
    exact h ((ranges sizes)[i], i) (List.mk_mem_zipIdx_iff_getElem?.mpr
      (List.getElem?_eq_getElem hi))

/-- No cost is negative. -/
def NonnegCosts (problem : Problem) : Prop := ∀ lo hi i, 0 ≤ problem.cost lo hi i

theorem pyMax_eq {values : List ℚ} (h : ∀ value ∈ values, 0 ≤ value) :
    Problem.pyMax values = values.foldl max 0 := by
  cases values with
  | nil => rfl
  | cons value values =>
    rw [Problem.pyMax, List.foldl_cons, max_eq_right (h value List.mem_cons_self)]

theorem worst_eq (hcosts : NonnegCosts problem) {sizes : List Nat}
    (h : problem.allFeasible fnmatch sizes = true) :
    worst (problem.weight fnmatch) 0 sizes = (bottleneck problem sizes : WithTop ℚ) := by
  have hweights : (segments 0 0 sizes).map (problem.weight fnmatch) =
      (problem.stageCosts sizes).map fun c : ℚ => (c : WithTop ℚ) := by
    rw [stageCosts_eq, List.map_map]
    exact List.map_congr_left fun segment hsegment => if_pos (allFeasible_iff.mp h segment hsegment)
  have hcoe : ∀ (values : List ℚ) (acc : ℚ),
      (values.map fun c : ℚ => (c : WithTop ℚ)).foldl max (acc : WithTop ℚ) =
        (values.foldl max acc : ℚ) := by
    intro values
    induction values with
    | nil => exact fun acc => rfl
    | cons value values ih =>
      intro acc
      rw [List.map_cons, List.foldl_cons, List.foldl_cons, ← WithTop.coe_max, ih]
  have hnonneg : ∀ c ∈ problem.stageCosts sizes, 0 ≤ c := fun c hc => by
    rw [stageCosts_eq] at hc
    obtain ⟨segment, -, rfl⟩ := List.mem_map.mp hc
    exact hcosts _ _ _
  rw [worst, hweights, bottleneck, pyMax_eq hnonneg]
  exact hcoe _ 0

theorem allFeasible_of_worst_le {sizes : List Nat} {bound : ℚ}
    (h : worst (problem.weight fnmatch) 0 sizes ≤ (bound : WithTop ℚ)) :
    problem.allFeasible fnmatch sizes = true := by
  refine allFeasible_iff.mpr fun segment hsegment => ?_
  by_contra hnot
  have hle := (worst_le_iff.mp h).2 segment hsegment
  rw [Problem.weight, if_neg hnot] at hle
  exact absurd hle (WithTop.coe_lt_top bound).not_ge

theorem bottleneck_nonneg (hcosts : NonnegCosts problem) (sizes : List Nat) :
    0 ≤ bottleneck problem sizes := by
  cases hvalues : problem.stageCosts sizes with
  | nil => rw [bottleneck, hvalues, Problem.pyMax]
  | cons c cs =>
    have hc : c ∈ problem.stageCosts sizes := hvalues ▸ List.mem_cons_self
    rw [stageCosts_eq] at hc
    obtain ⟨segment, -, rfl⟩ := List.mem_map.mp hc
    rw [bottleneck, hvalues, Problem.pyMax]
    exact (hcosts _ _ _).trans (foldl_max_le_iff.mp le_rfl).1

theorem optimum_spec (hcosts : NonnegCosts problem) {optimum : WithTop ℚ}
    (hoptimum : (problem.table fnmatch problem.pp).1.getD problem.numLayers ⊤ = optimum) :
    (∀ sizes, FeasibleSplit fnmatch problem sizes →
        optimum ≤ (bottleneck problem sizes : WithTop ℚ)) ∧
      (optimum ≠ ⊤ → ∃ sizes, FeasibleSplit fnmatch problem sizes ∧
        optimum = (bottleneck problem sizes : WithTop ℚ)) := by
  rw [(table_spec problem.pp).1 _ le_rfl] at hoptimum
  constructor
  · intro sizes h
    rw [← hoptimum, ← worst_eq hcosts h.2]
    exact best_le h.1
  · intro hne
    obtain ⟨sizes, hsplit, hworst⟩ := exists_split_of_best (hoptimum ▸ hne)
    have hfinite : worst (problem.weight fnmatch) 0 sizes < ⊤ := by
      rw [hworst, hoptimum]
      exact lt_top_iff_ne_top.mpr hne
    obtain ⟨bound, hbound⟩ := WithTop.ne_top_iff_exists.mp hfinite.ne
    have hfeasible := allFeasible_of_worst_le hbound.ge
    exact ⟨sizes, ⟨hsplit, hfeasible⟩, by rw [← hoptimum, ← hworst, worst_eq hcosts hfeasible]⟩

/-! ## The splits in use -/

/-- Each stage goes on where the one before it ends. -/
def Follow (start : Nat) : List (List Nat) → Prop
  | [] => True
  | layers :: stages =>
    layers ≠ [] ∧ layers = List.range' start layers.length ∧ Follow (start + layers.length) stages

/-- What loading a run has checked. -/
structure Run.Loaded (run : Run) : Prop where
  follow : Follow 0 run.stages
  cover : (run.stages.map List.length).sum = run.kindOfLayer.length
  length : run.stages.length = run.numStages
  layerCost : ∀ kind, 0 ≤ run.layerCost kind
  fixedFirst : 0 ≤ run.fixedFirst
  fixedLast : 0 ≤ run.fixedLast
  fixedEvery : 0 ≤ run.fixedEvery

theorem stageCost_nonneg {run : Run} (h : run.Loaded) (lo hi i numStages : Nat) :
    0 ≤ stageCost run lo hi i numStages := by
  have hlayers : 0 ≤ ((List.range' lo (hi - lo)).map fun layer =>
      run.layerCost (run.kindOfLayer.getD layer "")).sum :=
    List.sum_nonneg fun c hc => by
      obtain ⟨layer, -, rfl⟩ := List.mem_map.mp hc
      exact h.layerCost _
  have hevery := h.fixedEvery
  have hfirst := h.fixedFirst
  have hlast := h.fixedLast
  rw [stageCost]
  split
  · split
    · linarith
    · linarith
  · split
    · linarith
    · linarith

theorem follow_sizes {start : Nat} {stages : List (List Nat)} (h : Follow start stages) :
    (stages.map fun layers => layers.getLastD 0 + 1 - layers.headD 0) =
      stages.map List.length := by
  induction stages generalizing start with
  | nil => rfl
  | cons layers stages ih =>
    obtain ⟨hne, hlayers, hrest⟩ := h
    rw [List.map_cons, List.map_cons, ih hrest]
    congr 1
    obtain ⟨m, hm⟩ : ∃ m, layers.length = m + 1 :=
      ⟨layers.length - 1, by have := List.length_pos_iff.mpr hne; omega⟩
    rw [hm] at hlayers
    have hhead : layers.headD 0 = start := by rw [hlayers, List.range'_succ]; rfl
    have hlast : layers.getLastD 0 = start + m := by
      rw [hlayers, List.range'_1_concat, List.getLastD_concat]
    omega

theorem ownSplit_isSplit {run : Run} (h : run.Loaded) : IsSplit run.kindOfLayer.length run.numStages
      ((stageRanges run).map fun range => range.2 - range.1) := by
  have hsizes : (stageRanges run).map (fun range => range.2 - range.1) =
      run.stages.map List.length := by
    rw [stageRanges, List.map_map]
    exact follow_sizes h.follow
  have hpos : ∀ (start : Nat) (stages : List (List Nat)), Follow start stages →
      ∀ layers ∈ stages, 0 < layers.length := by
    intro start stages
    induction stages generalizing start with
    | nil => exact fun _ layers hlayers => (List.not_mem_nil hlayers).elim
    | cons first stages ih =>
      rintro ⟨hne, -, hrest⟩
      exact List.forall_mem_cons.mpr ⟨List.length_pos_iff.mpr hne, ih _ hrest⟩
  rw [hsizes]
  refine ⟨by rw [List.length_map, h.length], fun size hsize => ?_, h.cover⟩
  obtain ⟨layers, hlayers, rfl⟩ := List.mem_map.mp hsize
  exact hpos 0 _ h.follow layers hlayers

theorem modify_succ {sizes : List Nat} {k : Nat} (hk : k < sizes.length) :
    (sizes.modify k (· + 1)).sum = sizes.sum + 1 := by
  induction sizes generalizing k with
  | nil => cases hk
  | cons size sizes ih =>
    cases k with
    | zero =>
      rw [List.modify_zero_cons, List.sum_cons, List.sum_cons]
      omega
    | succ k =>
      rw [List.modify_succ_cons, List.sum_cons, List.sum_cons, ih (Nat.lt_of_succ_lt_succ hk)]
      omega

theorem vllmDefault_isSplit {numLayers pp : Nat} (hpp : 1 ≤ pp) (hle : pp ≤ numLayers) :
    IsSplit numLayers pp (vllmDefault numLayers pp) := by
  have hfold : ∀ (is : List Nat) (sizes : List Nat), (∀ i ∈ is, 2 ≤ i) → sizes.length = pp →
      (∀ size ∈ sizes, 0 < size) →
      IsSplit (sizes.sum + is.length) pp
        (is.foldl (fun sizes i => sizes.modify (pp - i) (· + 1)) sizes) := by
    intro is
    induction is with
    | nil => exact fun sizes _ hlength hpos => ⟨hlength, hpos, rfl⟩
    | cons i is ih =>
      intro sizes his hlength hpos
      obtain ⟨hi, his⟩ := List.forall_mem_cons.mp his
      have hsum : (sizes.modify (pp - i) (· + 1)).sum = sizes.sum + 1 := modify_succ (by omega)
      have hrest := ih (sizes.modify (pp - i) (· + 1)) his (by rw [List.length_modify, hlength])
        fun size hsize => by
          obtain ⟨j, hj, rfl⟩ := List.mem_iff_getElem.mp hsize
          rw [List.getElem_modify]
          split
          · exact Nat.succ_pos _
          · exact hpos _ (List.getElem_mem _)
      rw [hsum] at hrest
      rw [List.foldl_cons, List.length_cons, ← Nat.add_assoc, Nat.add_right_comm]
      exact hrest
  have hsplit := hfold (List.range' 2 (numLayers % pp)) (List.replicate pp (numLayers / pp))
    (fun i hi => (List.mem_range'_1.mp hi).1) List.length_replicate fun size hsize => by
      rw [(List.mem_replicate.mp hsize).2]
      exact Nat.div_pos hle hpp
  rw [List.sum_replicate, List.length_range', smul_eq_mul, Nat.div_add_mod] at hsplit
  exact hsplit

/-! ## What is found -/

/-- A feasible split within a fraction of every other's bottleneck. -/
def Within (fnmatch : String → String → Bool) (problem : Problem) (slack : ℚ) (sizes : List Nat) :
    Prop :=
  FeasibleSplit fnmatch problem sizes ∧ ∀ other, FeasibleSplit fnmatch problem other →
    bottleneck problem sizes ≤ bottleneck problem other * (1 + slack)

/-- A feasible split of the smallest bottleneck. -/
def Smallest (fnmatch : String → String → Bool) (problem : Problem) (sizes : List Nat) : Prop :=
  FeasibleSplit fnmatch problem sizes ∧ ∀ other, FeasibleSplit fnmatch problem other →
    bottleneck problem sizes ≤ bottleneck problem other

/-- The splits within the tolerance, in lexicographic order. -/
def tolerated (fnmatch : String → String → Bool) (problem : Problem) (optimum : ℚ) :
    List (List Nat) :=
  completions (problem.weight fnmatch) problem.numLayers
    ((optimum * (1 + problem.tolerance) : ℚ) : WithTop ℚ) problem.pp []

theorem mem_tolerated (hcosts : NonnegCosts problem) (htolerance : 0 ≤ problem.tolerance)
    {sizes : List Nat} (h : Smallest fnmatch problem sizes) {split : List Nat} :
    split ∈ tolerated fnmatch problem (bottleneck problem sizes) ↔
      Within fnmatch problem problem.tolerance split := by
  have hbound : 0 ≤ bottleneck problem sizes * (1 + problem.tolerance) :=
    mul_nonneg (bottleneck_nonneg hcosts sizes) (by linarith)
  rw [tolerated, mem_completions_nil]
  constructor
  · rintro ⟨hsplit, hsegments⟩
    have hworst : worst (problem.weight fnmatch) 0 split ≤
        ((bottleneck problem sizes * (1 + problem.tolerance) : ℚ) : WithTop ℚ) :=
      worst_le_iff.mpr ⟨WithTop.coe_le_coe.mpr hbound, hsegments⟩
    have hfeasible := allFeasible_of_worst_le hworst
    rw [worst_eq hcosts hfeasible, WithTop.coe_le_coe] at hworst
    refine ⟨⟨hsplit, hfeasible⟩, fun other hother => hworst.trans ?_⟩
    exact mul_le_mul_of_nonneg_right (h.2 other hother) (by linarith)
  · rintro ⟨⟨hsplit, hfeasible⟩, hwithin⟩
    have hworst : worst (problem.weight fnmatch) 0 split ≤
        ((bottleneck problem sizes * (1 + problem.tolerance) : ℚ) : WithTop ℚ) := by
      rw [worst_eq hcosts hfeasible]
      exact WithTop.coe_le_coe.mpr (hwithin sizes h.1)
    exact ⟨hsplit, (worst_le_iff.mp hworst).2⟩

theorem pairwise_tolerated (optimum : ℚ) :
    (tolerated fnmatch problem optimum).Pairwise (· < ·) := pairwise_completions _ _

theorem Smallest.within {sizes : List Nat} (h : Smallest fnmatch problem sizes)
    (hcosts : NonnegCosts problem) {slack : ℚ} (hslack : 0 ≤ slack) :
    Within fnmatch problem slack sizes :=
  ⟨h.1, fun other hother => (h.2 other hother).trans
    (le_mul_of_one_le_right (bottleneck_nonneg hcosts other) (by linarith))⟩

theorem record_worst (hcosts : NonnegCosts problem) {sizes : List Nat}
    (h : problem.allFeasible fnmatch sizes = true) :
    (record fnmatch problem sizes).worst = bottleneck problem sizes := by
  rw [record, worst_eq hcosts h, WithTop.untopD_coe]

instance : IsTrans Problem.Found Problem.Found.before where
  trans _ _ _ h h' := by
    rcases h with h | ⟨h, hsq⟩
    · rcases h' with h' | ⟨h', -⟩
      · exact .inl (h.trans h')
      · exact .inl (h.trans_eq h')
    · rcases h' with h' | ⟨h', hsq'⟩
      · exact .inl (h.trans_lt h')
      · exact .inr ⟨h.trans h', hsq.trans hsq'⟩

instance : Std.Total Problem.Found.before where
  total left right := by
    rcases lt_trichotomy left.worst right.worst with h | h | h
    · exact .inl (.inl h)
    · rcases le_total left.sq right.sq with hsq | hsq
      · exact .inl (.inr ⟨h, hsq⟩)
      · exact .inr (.inr ⟨h.symm, hsq⟩)
    · exact .inr (.inl h)

theorem found_spec (hcosts : NonnegCosts problem) (htolerance : 0 ≤ problem.tolerance)
    {sizes : List Nat} (h : Smallest fnmatch problem sizes) {seg : Problem.Memo}
    (hseg : Recalls fnmatch problem seg) :
    let listed := (tolerated fnmatch problem (bottleneck problem sizes)).take maxSplits
    let found := problem.found fnmatch (bottleneck problem sizes) seg
    (∀ entry ∈ found, ∃ split ∈ listed, entry = record fnmatch problem split) ∧
      ∃ first ∈ listed, found.head? = some (record fnmatch problem first) ∧
        ∀ split ∈ listed, bottleneck problem first ≤ bottleneck problem split := by
  intro listed found
  have hstart : ((0 : ℚ) : WithTop ℚ) = worst (problem.weight fnmatch) 0 [] := rfl
  have hdfs := (@dfs_spec fnmatch problem (bottleneck problem sizes * (1 + problem.tolerance))
    problem.pp 0 [] 0 0 ⟨[], seg⟩ (Nat.zero_add problem.pp) rfl hstart rfl hseg
    (Nat.zero_le _)).1
  rw [List.nil_append, ← List.map_take] at hdfs
  have hfound : found = (listed.map (record fnmatch problem)).insertionSort
      Problem.Found.before := by
    show (problem.dfs fnmatch _ problem.pp 0 [] 0 0 ⟨[], seg⟩).found.insertionSort _ = _
    rw [hdfs]
    rfl
  have hmem : ∀ entry ∈ found, ∃ split ∈ listed, entry = record fnmatch problem split := by
    intro entry hentry
    rw [hfound, List.mem_insertionSort] at hentry
    obtain ⟨split, hsplit, rfl⟩ := List.mem_map.mp hentry
    exact ⟨split, hsplit, rfl⟩
  have hne : listed ≠ [] := by
    have hin := (mem_tolerated hcosts htolerance h).mpr (h.within hcosts htolerance)
    intro hnil
    rcases List.take_eq_nil_iff.mp hnil with hzero | hnil
    · cases hzero
    · rw [hnil] at hin
      cases hin
  have hfeasible : ∀ split ∈ listed, problem.allFeasible fnmatch split = true := fun split hsplit =>
    ((mem_tolerated hcosts htolerance h).mp (List.mem_of_mem_take hsplit)).1.2
  have hsorted : found.Pairwise Problem.Found.before := by
    rw [hfound]
    exact List.pairwise_insertionSort _ _
  refine ⟨hmem, ?_⟩
  cases hcase : found with
  | nil =>
    have hlength : listed.length = 0 := by
      have := congrArg List.length hfound
      rwa [hcase, List.length_insertionSort, List.length_map, List.length_nil, eq_comm] at this
    exact absurd (List.length_eq_zero_iff.mp hlength) hne
  | cons entry entries =>
    obtain ⟨first, hfirst, rfl⟩ := hmem entry (hcase ▸ List.mem_cons_self)
    refine ⟨first, hfirst, rfl, fun split hsplit => ?_⟩
    have hin : record fnmatch problem split ∈ found := by
      rw [hfound, List.mem_insertionSort]
      exact List.mem_map_of_mem hsplit
    rw [hcase] at hin hsorted
    rcases List.mem_cons.mp hin with heq | hin
    · rw [← record_worst hcosts (hfeasible first hfirst),
        ← record_worst hcosts (hfeasible split hsplit), heq]
    · have hbefore := (List.pairwise_cons.mp hsorted).1 _ hin
      rw [← record_worst hcosts (hfeasible first hfirst),
        ← record_worst hcosts (hfeasible split hsplit)]
      -- the sort compares bottlenecks first
      rcases hbefore with hlt | ⟨heq, -⟩
      · exact hlt.le
      · exact heq.le

/-- The recommendation is a split of the smallest bottleneck, or ties and is in use. -/
def Recommends (fnmatch : String → String → Bool) (problem : Problem) (keep split : List Nat) :
    Prop :=
  Smallest fnmatch problem split ∨ split = keep ∧ Within fnmatch problem (1 / 10 ^ 9) split

theorem chosen_iff (hcosts : NonnegCosts problem) {keep : List Nat}
    (hkeep : IsSplit problem.numLayers problem.pp keep) {listed : List (List Nat)}
    (hlisted : ∀ split ∈ listed, FeasibleSplit fnmatch problem split)
    {found : List Problem.Found} {first : List Nat} (hfirst : first ∈ listed)
    (hhead : found.head? = some (record fnmatch problem first))
    (hbest : ∀ split ∈ listed, bottleneck problem first ≤ bottleneck problem split) :
    Recommends fnmatch problem keep (chosen fnmatch problem keep found) ↔
      (∃ split ∈ listed, Smallest fnmatch problem split) ∨
        Within fnmatch problem (1 / 10 ^ 9) keep := by
  have hfound : found.headD ⟨0, 0, []⟩ = record fnmatch problem first := by
    rw [List.headD_eq_head?_getD, hhead]
    rfl
  have hworst := record_worst hcosts (hlisted first hfirst).2
  by_cases hties : problem.allFeasible fnmatch keep ∧
      bottleneck problem keep ≤ bottleneck problem first * (1 + 1 / 10 ^ 9)
  · have hchosen : chosen fnmatch problem keep found = keep := by
      rw [chosen, hfound, hworst]
      exact if_pos hties
    rw [hchosen]
    constructor
    · rintro (hsmallest | ⟨-, hwithin⟩)
      · exact .inr (hsmallest.within hcosts (by norm_num))
      · exact .inr hwithin
    · rintro (⟨split, hsplit, hsmallest⟩ | hwithin)
      · refine .inr ⟨rfl, ⟨hkeep, hties.1⟩, fun other hother => hties.2.trans ?_⟩
        exact mul_le_mul_of_nonneg_right
          ((hbest split hsplit).trans (hsmallest.2 other hother)) (by norm_num)
      · exact .inr ⟨rfl, hwithin⟩
  · have hchosen : chosen fnmatch problem keep found = first := by
      rw [chosen, hfound, hworst]
      exact if_neg hties
    have hnot : ¬Within fnmatch problem (1 / 10 ^ 9) keep := fun hwithin =>
      hties ⟨hwithin.1.2, hwithin.2 first (hlisted first hfirst)⟩
    rw [hchosen]
    constructor
    · rintro (hsmallest | ⟨rfl, hwithin⟩)
      · exact .inl ⟨first, hfirst, hsmallest⟩
      · exact absurd hwithin hnot
    · rintro (⟨split, hsplit, hsmallest⟩ | hwithin)
      · exact .inl ⟨hlisted first hfirst, fun other hother =>
          (hbest split hsplit).trans (hsmallest.2 other hother)⟩
      · exact absurd hwithin hnot

end search

/-! ## The report -/

section report

variable {fnmatch : String → String → Bool} {args : Args} {pp : Nat}

/-- What an accepted call has been checked for. -/
structure Accepted (args : Args) (pp : Nat) : Prop where
  pos : 1 ≤ pp
  le : pp ≤ args.run.kindOfLayer.length
  tolerance : 0 ≤ args.tolerance
  top : 1 ≤ args.top
  stageMs : ∀ run ∈ args.run :: args.runs, ∀ ms ∈ run.stageMs, 0 < ms

theorem accepted_of_accept (h : accept fnmatch args = .ok pp) : Accepted args pp := by
  simp only [accept, List.forM_eq_forM, check_then_eq_ok_iff, ensure_eq_ok_iff, forM_eq_ok_iff,
    Except.ok.injEq] at h
  obtain ⟨-, hdepth, hoptions, -, hruns, hpp⟩ := h
  obtain ⟨hpos, hle⟩ := hdepth
  rw [not_or, not_lt, not_lt] at hoptions
  refine ⟨by omega, by omega, hoptions.1, hoptions.2, fun run hrun ms hms => ?_⟩
  have hcheck := hruns run hrun
  simp only [checkRun, check_then_eq_ok_iff, ensure_eq_ok_iff] at hcheck
  exact not_le.mp fun hle => hcheck.1 ⟨ms, hms, hle⟩

theorem Accepted.nonnegCosts (h : Accepted args pp)
    (hloaded : ∀ run ∈ args.run :: args.runs, run.Loaded) : NonnegCosts (problem args pp) := by
  intro lo hi i
  refine List.sum_nonneg fun c hc => ?_
  obtain ⟨run, hrun, rfl⟩ := List.mem_map.mp hc
  exact div_nonneg (stageCost_nonneg (hloaded run hrun) _ _ _ _)
    (List.sum_nonneg fun ms hms => (h.stageMs run hrun ms hms).le)

theorem reference_isSplit (h : Accepted args pp) (hloaded : args.run.Loaded) :
    IsSplit args.run.kindOfLayer.length pp (reference args pp) := by
  rw [reference, references]
  split
  · next hown =>
    rw [hown.1]
    exact ownSplit_isSplit hloaded
  · exact vllmDefault_isSplit h.pos h.le

theorem report_eq {optimum : ℚ}
    (h : ((problem args pp).table fnmatch pp).1.getD (problem args pp).numLayers ⊤ =
      (optimum : WithTop ℚ)) :
    ∃ r, report fnmatch args pp = .ok r ∧ r.listed = (((problem args pp).found fnmatch optimum
        ((problem args pp).table fnmatch pp).2).take args.top.toNat).zipIdx.map (fun e =>
          (problem args pp).describe (bottleneck (problem args pp) (reference args pp))
            ("best #" ++ toString (e.2 + 1)) e.1.sizes) ∧
      r.layerPartition = chosen fnmatch (problem args pp) (reference args pp)
        ((problem args pp).found fnmatch optimum ((problem args pp).table fnmatch pp).2) := by
  rw [report]
  simp only [h]
  exact ⟨_, rfl, rfl, rfl⟩

theorem exists_smallest (hcosts : NonnegCosts (problem args pp))
    (hexists : ∃ sizes, FeasibleSplit fnmatch (problem args pp) sizes) :
    ∃ sizes, Smallest fnmatch (problem args pp) sizes ∧
      ((problem args pp).table fnmatch pp).1.getD (problem args pp).numLayers ⊤ =
        (bottleneck (problem args pp) sizes : WithTop ℚ) := by
  obtain ⟨hle, hmeets⟩ := @optimum_spec fnmatch (problem args pp) hcosts _ rfl
  obtain ⟨some, hsome⟩ := hexists
  obtain ⟨sizes, hsizes, heq⟩ := hmeets ((hle some hsome).trans_lt (WithTop.coe_lt_top _)).ne
  refine ⟨sizes, ⟨hsizes, fun other hother => ?_⟩, heq⟩
  have hother' := hle other hother
  rw [heq] at hother'
  exact WithTop.coe_le_coe.mp hother'

theorem recommended (haccept : accept fnmatch args = .ok pp)
    (hloaded : ∀ run ∈ args.run :: args.runs, run.Loaded)
    (hexists : ∃ sizes, FeasibleSplit fnmatch (problem args pp) sizes) :
    ∃ sizes r, Smallest fnmatch (problem args pp) sizes ∧ main fnmatch args = .ok r ∧
      r.listed ≠ [] ∧
      (∀ row ∈ r.listed, Within fnmatch (problem args pp) args.tolerance row.layerPartition ∧
        row.bottleneck = bottleneck (problem args pp) row.layerPartition) ∧
      (Recommends fnmatch (problem args pp) (reference args pp) r.layerPartition ↔
        (∃ split ∈ (tolerated fnmatch (problem args pp)
            (bottleneck (problem args pp) sizes)).take maxSplits,
          Smallest fnmatch (problem args pp) split) ∨
        Within fnmatch (problem args pp) (1 / 10 ^ 9) (reference args pp)) := by
  have haccepted := accepted_of_accept haccept
  have hcosts := haccepted.nonnegCosts hloaded
  obtain ⟨sizes, hsmallest, htable⟩ := exists_smallest hcosts hexists
  obtain ⟨r, hreport, hlisted, hpartition⟩ := report_eq htable
  have htolerated : ∀ split, split ∈ tolerated fnmatch (problem args pp)
      (bottleneck (problem args pp) sizes) ↔
        Within fnmatch (problem args pp) args.tolerance split := fun split =>
    mem_tolerated hcosts haccepted.tolerance hsmallest
  obtain ⟨hfound, first, hfirst, hhead, hbest⟩ := found_spec hcosts haccepted.tolerance hsmallest
    (table_spec pp).2
  refine ⟨sizes, r, hsmallest, ?_, ?_, fun row hrow => ?_, ?_⟩
  · rw [main, haccept]
    exact hreport
  · intro hnil
    have htop := haccepted.top
    rw [hlisted, List.map_eq_nil_iff, List.zipIdx_eq_nil_iff, List.take_eq_nil_iff] at hnil
    rcases hnil with hzero | hnil
    · omega
    · rw [hnil] at hhead
      cases hhead
  · rw [hlisted] at hrow
    obtain ⟨⟨entry, k⟩, hentry, rfl⟩ := List.mem_map.mp hrow
    obtain ⟨split, hsplit, rfl⟩ :=
      hfound entry (List.mem_of_mem_take (List.fst_mem_of_mem_zipIdx hentry))
    exact ⟨(htolerated split).mp (List.mem_of_mem_take hsplit), rfl⟩
  · rw [hpartition]
    exact chosen_iff hcosts (reference_isSplit haccepted (hloaded _ List.mem_cons_self))
      (fun split hsplit => ((htolerated split).mp (List.mem_of_mem_take hsplit)).1) hfirst hhead
      hbest

/-- The splits listed are within the tolerance of the smallest bottleneck; the recommendation
has it, or ties and is in use, exactly when fewer splits than the cap stand before some best
one, or the split in use ties. -/
theorem layer_balance (haccept : accept fnmatch args = .ok pp)
    (hloaded : ∀ run ∈ args.run :: args.runs, run.Loaded)
    (hexists : ∃ sizes, FeasibleSplit fnmatch (problem args pp) sizes) :
    ∃ r, main fnmatch args = .ok r ∧ r.listed ≠ [] ∧
      (∀ row ∈ r.listed, Within fnmatch (problem args pp) args.tolerance row.layerPartition ∧
        row.bottleneck = bottleneck (problem args pp) row.layerPartition) ∧
      (Recommends fnmatch (problem args pp) (reference args pp) r.layerPartition ↔
        (∃ sizes, Smallest fnmatch (problem args pp) sizes ∧
          {other | Within fnmatch (problem args pp) args.tolerance other ∧ other < sizes}.ncard <
            maxSplits) ∨
        Within fnmatch (problem args pp) (1 / 10 ^ 9) (reference args pp)) := by
  have haccepted := accepted_of_accept haccept
  have hcosts := haccepted.nonnegCosts hloaded
  obtain ⟨sizes, r, hsmallest, hmain, hne, hrows, hiff⟩ := recommended haccept hloaded hexists
  have htolerated : ∀ split, split ∈ tolerated fnmatch (problem args pp)
      (bottleneck (problem args pp) sizes) ↔
        Within fnmatch (problem args pp) args.tolerance split := fun split =>
    mem_tolerated hcosts haccepted.tolerance hsmallest
  refine ⟨r, hmain, hne, hrows, hiff.trans (or_congr_left ?_)⟩
  have hcount : ∀ split, Smallest fnmatch (problem args pp) split →
      (split ∈ (tolerated fnmatch (problem args pp)
          (bottleneck (problem args pp) sizes)).take maxSplits ↔
        {other | Within fnmatch (problem args pp) args.tolerance other ∧ other < split}.ncard <
          maxSplits) := by
    intro split hsplit
    rw [mem_take_iff (pairwise_tolerated _)
      ((htolerated split).mpr (hsplit.within hcosts haccepted.tolerance))]
    simp only [htolerated]
  constructor
  · rintro ⟨split, hmem, hsplit⟩
    exact ⟨split, hsplit, (hcount split hsplit).mp hmem⟩
  · rintro ⟨split, hsplit, hlt⟩
    exact ⟨split, (hcount split hsplit).mpr hlt, hsplit⟩

end report

/-! ## Two calls -/

/-- Patterns without wildcards. -/
def sameText (text pattern : String) : Bool := text == pattern

/-- Seven layers of two kinds over three stages, each of which needs the second kind. -/
def hybridArgs : Args where
  run := ⟨"run", 2, [[0, 1, 2, 3], [4, 5, 6]], fun kind => if kind = "kda" then 2 else 3, 1, 2,
    1 / 2, [23 / 2, 19 / 2], ["kda", "dsa", "kda", "dsa", "kda", "dsa", "kda"]⟩
  runs := []
  ppSize := some 3
  eachStageNeeds := ["dsa"]
  top := 5
  tolerance := 1 / 2

theorem hybrid_smallest : Smallest sameText (problem hybridArgs 3) [2, 3, 2] := by
  have hall : ∀ a < 8, ∀ b < 8, ∀ c < 8, a + b + c = 7 →
      bottleneck (problem hybridArgs 3) [2, 3, 2] ≤
        bottleneck (problem hybridArgs 3) [a, b, c] := by decide +kernel
  refine ⟨⟨⟨rfl, by decide, rfl⟩, by decide +kernel⟩, fun other hother => ?_⟩
  obtain ⟨a, b, c, rfl⟩ := List.length_eq_three.mp hother.1.length
  have hsum : a + b + c = 7 := by
    have hsum : a + (b + (c + 0)) = 7 := hother.1.sum
    omega
  exact hall a (by omega) b (by omega) c (by omega) hsum

theorem layer_balance_hybrid : ∃ r, main sameText hybridArgs = .ok r ∧
    r.listed.map Row.layerPartition = [[2, 3, 2], [3, 2, 2], [2, 2, 3], [3, 1, 3]] ∧
    (∀ row ∈ r.listed, Within sameText (problem hybridArgs 3) (1 / 2) row.layerPartition) ∧
    r.layerPartition = [2, 3, 2] ∧
    Recommends sameText (problem hybridArgs 3) (reference hybridArgs 3) r.layerPartition := by
  have haccept : accept sameText hybridArgs = .ok 3 := by decide +kernel
  have hloaded : hybridArgs.run.Loaded := by
    refine ⟨?_, rfl, rfl, fun kind => ?_, ?_, ?_, ?_⟩
    · refine ⟨List.cons_ne_nil _ _, rfl, List.cons_ne_nil _ _, rfl, trivial⟩
    · show (0 : ℚ) ≤ if kind = "kda" then 2 else 3
      split
      · norm_num
      · norm_num
    · norm_num [hybridArgs]
    · norm_num [hybridArgs]
    · norm_num [hybridArgs]
  obtain ⟨r, hmain, -, hlisted, hrecommends⟩ := layer_balance haccept
    (fun run hrun => List.mem_singleton.mp hrun ▸ hloaded) ⟨_, hybrid_smallest.1⟩
  obtain ⟨evaluated, hevaluated, hcheck⟩ : ∃ r, main sameText hybridArgs = .ok r ∧
      decide (r.layerPartition = [2, 3, 2] ∧ r.listed.map Row.layerPartition =
        [[2, 3, 2], [3, 2, 2], [2, 2, 3], [3, 1, 3]]) = true :=
    exists_ok_of_check (by decide +kernel)
  obtain rfl := Except.ok.inj (hevaluated.symm.trans hmain)
  obtain ⟨hpartition, hrows⟩ := of_decide_eq_true hcheck
  have hreference : Smallest sameText (problem hybridArgs 3) (reference hybridArgs 3) :=
    hybrid_smallest
  exact ⟨evaluated, hmain, hrows, fun row hrow => (hlisted row hrow).1, hpartition,
    hrecommends.mpr (.inr (hreference.within
      ((accepted_of_accept haccept).nonnegCosts fun run hrun =>
        List.mem_singleton.mp hrun ▸ hloaded) (by norm_num)))⟩

/-- Equal layers with a heavy head after the last, cut in eight with a wide tolerance. -/
def wideArgs : Args where
  run := ⟨"run", 2, [List.range' 0 19, List.range' 19 18], fun _ => 1, 0, 3, 0, [19, 21],
    List.replicate 37 "moe"⟩
  runs := []
  ppSize := some 8
  eachStageNeeds := []
  top := 5
  tolerance := 10

theorem wide_cost (lo hi i : Nat) :
    (problem wideArgs 8).cost lo hi i = ((hi - lo : Nat) + if i = 7 then 3 else 0) / 40 := by
  have htotal : ([19, 21] : List ℚ).sum = 40 := by norm_num
  have hlayers : ((List.range' lo (hi - lo)).map fun _ => (1 : ℚ)).sum = (hi - lo : Nat) := by
    rw [List.map_const', List.length_range', List.sum_replicate, nsmul_eq_mul, mul_one]
  have hlast : i + 1 = 8 ↔ i = 7 := by omega
  have hstage : stageCost wideArgs.run lo hi i 8 = (hi - lo : Nat) + if i = 7 then 3 else 0 := by
    simp only [stageCost, wideArgs, hlayers, hlast, add_zero, ite_self]
    split
    · rfl
    · exact (add_zero _).symm
  show (stageCost wideArgs.run lo hi i 8 / ([19, 21] : List ℚ).sum) + 0 = _
  rw [hstage, htotal, add_zero]

theorem wide_total {lo i : Nat} {sizes : List Nat} (hne : sizes ≠ [])
    (hlength : i + sizes.length = 8) :
    ((segments lo i sizes).map fun segment =>
      (problem wideArgs 8).cost segment.1 segment.2.1 segment.2.2).sum = (sizes.sum + 3) / 40 := by
  induction sizes generalizing lo i with
  | nil => exact absurd rfl hne
  | cons size sizes ih =>
    rw [List.length_cons] at hlength
    rw [segments, List.map_cons, List.sum_cons, wide_cost, Nat.add_sub_cancel_left]
    by_cases hnil : sizes = []
    · subst hnil
      have hlast : i = 7 := by rw [List.length_nil] at hlength; omega
      rw [if_pos hlast]
      simp [segments]
    · have hlast : i ≠ 7 := fun h => by
        have := List.length_pos_iff.mpr hnil
        omega
      rw [if_neg hlast, ih hnil (by omega), List.sum_cons, Nat.cast_add]
      ring

theorem wide_stageCosts_le (sizes : List Nat) :
    ∀ c ∈ (problem wideArgs 8).stageCosts sizes, c ≤ bottleneck (problem wideArgs 8) sizes := by
  have hnonneg : ∀ c ∈ (problem wideArgs 8).stageCosts sizes, 0 ≤ c := fun c hc => by
    rw [stageCosts_eq] at hc
    obtain ⟨segment, -, rfl⟩ := List.mem_map.mp hc
    rw [wide_cost]
    positivity
  rw [bottleneck, pyMax_eq hnonneg]
  exact (foldl_max_le_iff.mp le_rfl).2

theorem length_segments (lo i : Nat) (sizes : List Nat) :
    (segments lo i sizes).length = sizes.length := by
  induction sizes generalizing lo i with
  | nil => rfl
  | cons size sizes ih => rw [segments, List.length_cons, List.length_cons, ih]

theorem wide_lower {sizes : List Nat} (h : IsSplit 37 8 sizes) :
    1 / 8 ≤ bottleneck (problem wideArgs 8) sizes := by
  have hne : sizes ≠ [] := by
    rintro rfl
    cases h.length
  have hle := List.sum_le_card_nsmul _ _ (wide_stageCosts_le sizes)
  rw [stageCosts_eq, wide_total hne (by rw [h.length]), h.sum, List.length_map, length_segments,
    h.length, nsmul_eq_mul] at hle
  norm_num at hle
  linarith

theorem wide_head {rest : List Nat} (hlength : rest.length = 7) (hsum : rest.sum = 36) :
    1 / 8 < bottleneck (problem wideArgs 8) (1 :: rest) := by
  have hne : rest ≠ [] := by
    rintro rfl
    cases hlength
  have hcosts := wide_stageCosts_le (1 :: rest)
  rw [stageCosts_eq, segments, List.map_cons] at hcosts
  have hle := List.sum_le_card_nsmul _ _ (List.forall_mem_cons.mp hcosts).2
  rw [wide_total hne (by rw [hlength]), hsum, List.length_map, length_segments, hlength,
    nsmul_eq_mul] at hle
  norm_num at hle
  linarith

theorem wide_feasible : FeasibleSplit sameText (problem wideArgs 8) [5, 5, 5, 5, 5, 5, 5, 2] :=
  ⟨⟨rfl, by decide, rfl⟩, by decide +kernel⟩

theorem wide_bottleneck :
    bottleneck (problem wideArgs 8) [5, 5, 5, 5, 5, 5, 5, 2] = 1 / 8 := by decide +kernel

theorem wide_weight {b : ℚ} (hb : 1 / 8 ≤ b) {segment : Nat × Nat × Nat}
    (hsegment : segment.2.1 ≤ 37) :
    (problem wideArgs 8).weight sameText segment ≤ ((b * (1 + 10) : ℚ) : WithTop ℚ) := by
  have hlayers : ((segment.2.1 - segment.1 : Nat) : ℚ) ≤ 37 := by
    exact_mod_cast (Nat.sub_le _ _).trans hsegment
  have hhead : (if segment.2.2 = 7 then 3 else 0 : ℚ) ≤ 3 := by
    split
    · exact le_rfl
    · norm_num
  have hfeasible : (problem wideArgs 8).feasible sameText segment.1 segment.2.1 = true := rfl
  rw [Problem.weight, if_pos hfeasible, WithTop.coe_le_coe, wide_cost]
  linarith

theorem wide_listed {b : ℚ} (hb : 1 / 8 ≤ b) {split : List Nat}
    (hsplit : split ∈ (tolerated sameText (problem wideArgs 8) b).take maxSplits) :
    ∃ rest, split = 1 :: rest ∧ rest.length = 7 ∧ rest.sum = 36 := by
  set listed := completions ((problem wideArgs 8).weight sameText) 37
    ((b * (1 + 10) : ℚ) : WithTop ℚ) 7 [1] with hlisted
  have hlength : listed.length = Nat.choose 35 6 :=
    length_completions (fun segment hsegment => wide_weight hb hsegment) (by decide)
  have hmany : maxSplits ≤ listed.length := by
    rw [hlength]
    decide
  obtain ⟨others, hothers⟩ : ∃ others,
      tolerated sameText (problem wideArgs 8) b = listed ++ others :=
    exists_completions_append (by decide) (wide_weight hb (by decide))
  rw [hothers, List.take_append_of_le_length hmany] at hsplit
  obtain ⟨rest, rfl, hrest, -, hsum, -⟩ := mem_completions.mp (List.mem_of_mem_take hsplit)
  refine ⟨rest, rfl, hrest, ?_⟩
  rw [List.sum_append, List.sum_singleton] at hsum
  omega

/-- More splits start with one layer than are listed, and none of them is the best. -/
theorem wide_recommendation : ∃ r, main sameText wideArgs = .ok r ∧
    (∃ sizes, FeasibleSplit sameText (problem wideArgs 8) sizes) ∧
    ¬Recommends sameText (problem wideArgs 8) (reference wideArgs 8) r.layerPartition := by
  have haccept : accept sameText wideArgs = .ok 8 := by decide +kernel
  have hloaded : wideArgs.run.Loaded := by
    refine ⟨⟨List.cons_ne_nil _ _, rfl, List.cons_ne_nil _ _, rfl, trivial⟩, rfl, rfl,
      fun kind => ?_, ?_, ?_, ?_⟩
    · exact zero_le_one
    · exact le_rfl
    · norm_num [wideArgs]
    · exact le_rfl
  obtain ⟨sizes, r, hsmallest, hmain, -, -, hiff⟩ := recommended haccept
    (fun run hrun => List.mem_singleton.mp hrun ▸ hloaded) ⟨_, wide_feasible⟩
  refine ⟨r, hmain, ⟨_, wide_feasible⟩, fun hrecommends => ?_⟩
  rcases hiff.mp hrecommends with ⟨split, hmem, hbest⟩ | hreference
  · obtain ⟨rest, rfl, hlength, hsum⟩ := wide_listed (wide_lower hsmallest.1.1) hmem
    have hle := hbest.2 _ wide_feasible
    rw [wide_bottleneck] at hle
    exact absurd hle (wide_head hlength hsum).not_ge
  · have hkeep : bottleneck (problem wideArgs 8) (reference wideArgs 8) = 7 / 40 := by
      decide +kernel
    have hle := hreference.2 _ wide_feasible
    rw [hkeep, wide_bottleneck] at hle
    norm_num at hle

end LayerBalance

end ServingSim
