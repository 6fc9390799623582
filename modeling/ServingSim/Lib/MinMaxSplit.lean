import Mathlib.Data.List.Lex
import Mathlib.Order.BoundedOrder.Lattice
import Mathlib.Tactic

/-
  Contiguous splits and their heaviest stage.

  A line of places is cut into stages that follow each other; a stage has a weight that
  depends on where it starts and ends and on its index. The smallest heaviest weight over
  all splits of a prefix satisfies a recursion on its last stage; the splits whose stages
  stay within a bound are listed by a recursion on their first stages, in lexicographic
  order.
-/

namespace MinMaxSplit

/-- Positive sizes, one for each stage, that cover the line. -/
structure IsSplit (n stages : Nat) (sizes : List Nat) : Prop where
  length : sizes.length = stages
  pos : ∀ size ∈ sizes, 0 < size
  sum : sizes.sum = n

/-- Where each stage starts, where it ends, and its index. -/
def segments : Nat → Nat → List Nat → List (Nat × Nat × Nat)
  | _, _, [] => []
  | lo, i, size :: sizes => (lo, lo + size, i) :: segments (lo + size) (i + 1) sizes

theorem segments_append (lo i : Nat) (sizes rest : List Nat) : segments lo i (sizes ++ rest) =
      segments lo i sizes ++ segments (lo + sizes.sum) (i + sizes.length) rest := by
  induction sizes generalizing lo i with
  | nil => simp [segments]
  | cons size sizes ih =>
    rw [List.cons_append, segments, segments, ih, List.cons_append, List.sum_cons,
      List.length_cons, Nat.add_assoc, Nat.add_assoc i, Nat.add_comm 1]

section weights

variable {α : Type*} [LinearOrder α] (weight : Nat × Nat × Nat → α) (least : α)

/-- The heaviest stage, or the least weight. -/
def worst (sizes : List Nat) : α := ((segments 0 0 sizes).map weight).foldl max least

theorem worst_concat (sizes : List Nat) (size : Nat) : worst weight least (sizes ++ [size]) =
      max (worst weight least sizes) (weight (sizes.sum, sizes.sum + size, sizes.length)) := by
  rw [worst, segments_append, List.map_append, List.foldl_append, Nat.zero_add, Nat.zero_add]
  rfl

variable {weight least}

theorem foldl_max_le_iff {values : List α} {acc bound : α} :
    values.foldl max acc ≤ bound ↔ acc ≤ bound ∧ ∀ value ∈ values, value ≤ bound := by
  induction values generalizing acc with
  | nil => simp
  | cons value values ih =>
    rw [List.foldl_cons, ih, max_le_iff, List.forall_mem_cons, and_assoc]

theorem worst_le_iff {sizes : List Nat} {bound : α} : worst weight least sizes ≤ bound ↔
      least ≤ bound ∧ ∀ segment ∈ segments 0 0 sizes, weight segment ≤ bound := by
  rw [worst, foldl_max_le_iff, List.forall_mem_map]

theorem foldl_min_le {values : List α} {value : α} (h : value ∈ values) (acc : α) :
    values.foldl min acc ≤ value := by
  have hacc : ∀ (values : List α) (acc : α), values.foldl min acc ≤ acc := by
    intro values
    induction values with
    | nil => exact fun acc => le_rfl
    | cons first values ih => exact fun acc => (ih _).trans (min_le_left acc first)
  induction values generalizing acc with
  | nil => cases h
  | cons first values ih =>
    rcases List.mem_cons.mp h with rfl | h
    · exact (hacc values _).trans (min_le_right acc value)
    · exact ih h _

theorem foldl_min_mem (values : List α) (acc : α) :
    values.foldl min acc = acc ∨ values.foldl min acc ∈ values := by
  induction values generalizing acc with
  | nil => exact .inl rfl
  | cons first values ih =>
    rcases ih (min acc first) with h | h
    · rcases min_choice acc first with hmin | hmin
      · exact .inl (h.trans hmin)
      · exact .inr (List.mem_cons.mpr (.inl (h.trans hmin)))
    · exact .inr (List.mem_cons_of_mem _ h)

/-! ## The recursion on the last stage -/

section best

variable [OrderTop α] (weight least)

/-- The smallest heaviest weight over the splits of a prefix, top without one. -/
def best : Nat → Nat → α
  | 0, hi => if hi = 0 then least else ⊤
  | i + 1, hi =>
    ((List.range' i (hi - i)).map fun lo => max (best i lo) (weight (lo, hi, i))).foldl min ⊤

variable {weight least}

theorem IsSplit.concat_iff {hi stages size : Nat} {sizes : List Nat} :
    IsSplit hi (stages + 1) (sizes ++ [size]) ↔
      0 < size ∧ size ≤ hi ∧ IsSplit (hi - size) stages sizes := by
  constructor
  · rintro ⟨hlength, hpos, hsum⟩
    rw [List.length_append, List.length_singleton] at hlength
    rw [List.sum_append, List.sum_singleton] at hsum
    exact ⟨hpos size (List.mem_append_right _ (List.mem_singleton_self _)), by omega,
      ⟨by omega, fun s hs => hpos s (List.mem_append_left _ hs), by omega⟩⟩
  · rintro ⟨hsize, hle, hlength, hpos, hsum⟩
    refine ⟨by rw [List.length_append, hlength]; rfl, fun s hs => ?_, ?_⟩
    · rcases List.mem_append.mp hs with hs | hs
      · exact hpos s hs
      · rwa [List.mem_singleton.mp hs]
    · rw [List.sum_append, List.sum_singleton]
      omega

theorem IsSplit.stages_le {n stages : Nat} {sizes : List Nat} (h : IsSplit n stages sizes) :
    stages ≤ n := by
  rw [← h.length, ← h.sum]
  exact List.length_le_sum_of_one_le sizes h.pos

theorem best_le {hi stages : Nat} {sizes : List Nat} (h : IsSplit hi stages sizes) :
    best weight least stages hi ≤ worst weight least sizes := by
  induction stages generalizing hi sizes with
  | zero =>
    obtain rfl := List.length_eq_zero_iff.mp h.length
    obtain rfl : 0 = hi := h.sum
    exact le_rfl
  | succ i ih =>
    rcases List.eq_nil_or_concat sizes with rfl | ⟨init, size, rfl⟩
    · cases h.length
    · rw [List.concat_eq_append] at h ⊢
      obtain ⟨hpos, hle, hinit⟩ := IsSplit.concat_iff.mp h
      have hsum : init.sum = hi - size := hinit.sum
      have hlo : hi - size ∈ List.range' i (hi - i) := by
        have := hinit.stages_le
        rw [List.mem_range'_1]
        omega
      calc best weight least (i + 1) hi
          ≤ max (best weight least i (hi - size)) (weight (hi - size, hi, i)) :=
            foldl_min_le (List.mem_map_of_mem hlo) ⊤
        _ ≤ max (worst weight least init) (weight (hi - size, hi, i)) :=
            max_le_max_right _ (ih hinit)
        _ = worst weight least (init ++ [size]) := by
            rw [worst_concat, hsum, hinit.length, Nat.sub_add_cancel hle]

theorem exists_split_of_best {hi stages : Nat} (h : best weight least stages hi ≠ ⊤) :
    ∃ sizes, IsSplit hi stages sizes ∧ worst weight least sizes = best weight least stages hi := by
  induction stages generalizing hi with
  | zero =>
    by_cases hzero : hi = 0
    · subst hzero
      exact ⟨[], ⟨rfl, fun _ hs => (List.not_mem_nil hs).elim, rfl⟩, rfl⟩
    · rw [best, if_neg hzero] at h
      exact absurd rfl h
  | succ i ih =>
    rcases foldl_min_mem ((List.range' i (hi - i)).map fun lo =>
      max (best weight least i lo) (weight (lo, hi, i))) ⊤ with htop | hmem
    · exact absurd htop h
    · obtain ⟨lo, hlo, heq⟩ := List.mem_map.mp hmem
      have hlt := List.mem_range'_1.mp hlo
      have hbest : best weight least (i + 1) hi =
          max (best weight least i lo) (weight (lo, hi, i)) := heq.symm
      have hne : best weight least i lo ≠ ⊤ := fun htop => by
        rw [hbest, htop, max_eq_left le_top] at h
        exact h rfl
      obtain ⟨init, hinit, hworst⟩ := ih hne
      have hlt' : lo < hi := by omega
      have hback : hi - (hi - lo) = lo := by omega
      refine ⟨init ++ [hi - lo], IsSplit.concat_iff.mpr ⟨by omega, by omega, ?_⟩, ?_⟩
      · rwa [hback]
      · rw [worst_concat, hworst, hinit.sum, hinit.length, hbest, Nat.add_sub_cancel' hlt'.le]

end best

/-! ## The recursion on the first stages -/

section completions

variable (weight) (n : Nat) (bound : α)

/-- The splits that start with the given sizes and go on within a bound. -/
def completions : Nat → List Nat → List (List Nat)
  | 0, sizes => if sizes.sum = n then [sizes] else []
  | rest + 1, sizes =>
    (List.range' (sizes.sum + 1) (n - rest - sizes.sum)).flatMap fun hi =>
      if weight (sizes.sum, hi, sizes.length) ≤ bound then
        completions rest (sizes ++ [hi - sizes.sum])
      else []

variable {weight n bound}

theorem mem_completions {stages : Nat} {sizes split : List Nat} :
    split ∈ completions weight n bound stages sizes ↔
      ∃ rest, split = sizes ++ rest ∧ rest.length = stages ∧ (∀ size ∈ rest, 0 < size) ∧
        split.sum = n ∧
        ∀ segment ∈ segments sizes.sum sizes.length rest, weight segment ≤ bound := by
  induction stages generalizing sizes with
  | zero =>
    rw [completions]
    constructor
    · intro h
      split at h
      · next hsum =>
        obtain rfl := List.mem_singleton.mp h
        exact ⟨[], (List.append_nil _).symm, rfl, fun _ hs => (List.not_mem_nil hs).elim, hsum,
          fun _ hs => (List.not_mem_nil hs).elim⟩
      · cases h
    · rintro ⟨rest, rfl, hlength, -, hsum, -⟩
      obtain rfl := List.length_eq_zero_iff.mp hlength
      rw [List.append_nil] at hsum ⊢
      rw [if_pos hsum]
      exact List.mem_singleton_self _
  | succ stages ih =>
    rw [completions, List.mem_flatMap]
    constructor
    · rintro ⟨hi, hhi, hmem⟩
      have hrange := List.mem_range'_1.mp hhi
      split at hmem
      · next hweight =>
        obtain ⟨rest, rfl, hlength, hpos, hsum, hsegments⟩ := ih.mp hmem
        have hback : sizes.sum + (hi - sizes.sum) = hi := by omega
        refine ⟨(hi - sizes.sum) :: rest, by rw [List.append_assoc]; rfl,
          by rw [List.length_cons, hlength], ?_, hsum, ?_⟩
        · exact List.forall_mem_cons.mpr ⟨by omega, hpos⟩
        · rw [segments, hback]
          refine List.forall_mem_cons.mpr ⟨hweight, ?_⟩
          rwa [List.sum_append, List.sum_singleton, hback, List.length_append] at hsegments
      · cases hmem
    · rintro ⟨rest, rfl, hlength, hpos, hsum, hsegments⟩
      cases rest with
      | nil => cases hlength
      | cons size rest =>
        obtain ⟨hsize, hrest⟩ := List.forall_mem_cons.mp hpos
        rw [segments] at hsegments
        obtain ⟨hweight, hsegments⟩ := List.forall_mem_cons.mp hsegments
        have hle : rest.length ≤ rest.sum := List.length_le_sum_of_one_le rest hrest
        have hlength' : rest.length = stages := Nat.succ.inj hlength
        rw [List.sum_append, List.sum_cons] at hsum
        refine ⟨sizes.sum + size, List.mem_range'_1.mpr ⟨by omega, by omega⟩, ?_⟩
        rw [if_pos hweight, Nat.add_sub_cancel_left]
        refine ih.mpr ⟨rest, by rw [List.append_assoc]; rfl, hlength', hrest, ?_, ?_⟩
        · rw [List.sum_append, List.sum_cons, hsum]
        · rwa [List.sum_append, List.sum_singleton, List.length_append]

theorem mem_completions_nil {stages : Nat} {split : List Nat} :
    split ∈ completions weight n bound stages [] ↔
      IsSplit n stages split ∧ ∀ segment ∈ segments 0 0 split, weight segment ≤ bound := by
  rw [mem_completions]
  constructor
  · rintro ⟨rest, rfl, hlength, hpos, hsum, hsegments⟩
    exact ⟨⟨hlength, hpos, hsum⟩, hsegments⟩
  · rintro ⟨⟨hlength, hpos, hsum⟩, hsegments⟩
    exact ⟨split, rfl, hlength, hpos, hsum, hsegments⟩

theorem append_lt_append {sizes rest rest' : List Nat} {size size' : Nat} (h : size < size') :
    sizes ++ [size] ++ rest < sizes ++ [size'] ++ rest' := by
  rw [List.append_assoc, List.append_assoc]
  exact List.append_left_lt (List.cons_lt_cons_iff.mpr (.inl h))

theorem pairwise_completions (stages : Nat) (sizes : List Nat) :
    (completions weight n bound stages sizes).Pairwise (· < ·) := by
  induction stages generalizing sizes with
  | zero =>
    rw [completions]
    split
    · exact List.pairwise_singleton _ _
    · exact List.Pairwise.nil
  | succ stages ih =>
    rw [completions, List.pairwise_flatMap]
    constructor
    · intro hi _
      split
      · exact ih _
      · exact List.Pairwise.nil
    · refine List.Pairwise.imp_of_mem ?_ List.pairwise_lt_range'
      intro hi hi' hhi hhi' hlt split hsplit split' hsplit'
      have hrange := List.mem_range'_1.mp hhi
      split at hsplit
      · split at hsplit'
        · obtain ⟨rest, rfl, -⟩ := mem_completions.mp hsplit
          obtain ⟨rest', rfl, -⟩ := mem_completions.mp hsplit'
          exact append_lt_append (by omega)
        · cases hsplit'
      · cases hsplit

theorem exists_completions_append {stages : Nat} {sizes : List Nat} (hlt : sizes.sum + stages < n)
    (hfirst : weight (sizes.sum, sizes.sum + 1, sizes.length) ≤ bound) :
    ∃ others, completions weight n bound (stages + 1) sizes =
      completions weight n bound stages (sizes ++ [1]) ++ others := by
  obtain ⟨m, hm⟩ : ∃ m, n - stages - sizes.sum = m + 1 := ⟨n - stages - sizes.sum - 1, by omega⟩
  rw [completions, hm, List.range'_succ, List.flatMap_cons, if_pos hfirst, Nat.add_sub_cancel_left]
  exact ⟨_, rfl⟩

theorem mem_take_iff {β : Type*} [LinearOrder β] {l : List β} (hl : l.Pairwise (· < ·)) {x : β}
    (hx : x ∈ l) (N : Nat) : x ∈ l.take N ↔ {y | y ∈ l ∧ y < x}.ncard < N := by
  obtain ⟨before, after, rfl⟩ := List.append_of_mem hx
  obtain ⟨hbefore, hafter, hacross⟩ := List.pairwise_append.mp hl
  have hlt : ∀ y ∈ before, y < x := fun y hy => hacross y hy x List.mem_cons_self
  have hset : {y | y ∈ before ++ x :: after ∧ y < x} = (before.toFinset : Set β) := by
    ext y
    rw [Set.mem_ofPred_eq, Finset.mem_coe, List.mem_toFinset, List.mem_append, List.mem_cons]
    constructor
    · rintro ⟨hy | rfl | hy, hyx⟩
      · exact hy
      · exact absurd hyx (lt_irrefl y)
      · exact absurd hyx ((List.pairwise_cons.mp hafter).1 y hy).asymm
    · exact fun hy => ⟨.inl hy, hlt y hy⟩
  have hnodup : before.Nodup := hbefore.imp fun h => h.ne
  rw [hset, Set.ncard_coe_finset, List.toFinset_card_of_nodup hnodup, List.take_append,
    List.mem_append]
  constructor
  · rintro (hmem | hmem)
    · exact absurd (hlt x (List.mem_of_mem_take hmem)) (lt_irrefl x)
    · by_contra hle
      rw [Nat.sub_eq_zero_of_le (not_lt.mp hle), List.take_zero] at hmem
      cases hmem
  · intro hlength
    obtain ⟨m, hm⟩ : ∃ m, N - before.length = m + 1 := ⟨N - before.length - 1, by omega⟩
    rw [hm, List.take_succ_cons]
    exact .inr List.mem_cons_self

theorem sum_map_choose (k lo m : Nat) :
    ((List.range' lo m).map fun hi => (lo + m + k - 1 - hi).choose k).sum =
      (m + k).choose (k + 1) := by
  induction m generalizing lo with
  | zero => simp
  | succ m ih =>
    have htail : ((List.range' (lo + 1) m).map fun hi =>
          (lo + (m + 1) + k - 1 - hi).choose k).sum = (m + k).choose (k + 1) := by
      rw [← ih (lo + 1)]
      refine congrArg List.sum (List.map_congr_left fun hi _ => ?_)
      congr 1
      omega
    rw [List.range'_succ, List.map_cons, List.sum_cons, htail, Nat.add_right_comm m 1 k,
      Nat.choose_succ_succ]
    congr 2
    omega

theorem length_completions {stages : Nat} {sizes : List Nat}
    (hbound : ∀ segment, segment.2.1 ≤ n → weight segment ≤ bound)
    (hlt : sizes.sum + stages < n) :
    (completions weight n bound (stages + 1) sizes).length = (n - sizes.sum - 1).choose stages := by
  induction stages generalizing sizes with
  | zero =>
    -- only the stage that ends at the end of the line is left
    obtain ⟨m, hm⟩ : ∃ m, n - sizes.sum = m + 1 := ⟨n - sizes.sum - 1, by omega⟩
    have hnil : (List.range' (sizes.sum + 1) m).flatMap (fun hi =>
        if weight (sizes.sum, hi, sizes.length) ≤ bound then
          completions weight n bound 0 (sizes ++ [hi - sizes.sum]) else []) = [] := by
      refine List.flatMap_eq_nil_iff.mpr fun hi hhi => ?_
      have hrange := List.mem_range'_1.mp hhi
      split
      · rw [completions, if_neg (by rw [List.sum_append, List.sum_singleton]; omega)]
      · rfl
    have hlast : sizes.sum + 1 + m = n := by omega
    rw [completions, Nat.sub_zero, hm, List.range'_1_concat, List.flatMap_append, hnil,
      List.nil_append, List.flatMap_singleton, if_pos (hbound _ hlast.le), completions,
      if_pos (by rw [List.sum_append, List.sum_singleton]; omega), Nat.choose_zero_right]
    rfl
  | succ stages ih =>
    obtain ⟨m, hm⟩ : ∃ m, n - (stages + 1) - sizes.sum = m := ⟨_, rfl⟩
    have hlengths : ∀ hi ∈ List.range' (sizes.sum + 1) m,
        (if weight (sizes.sum, hi, sizes.length) ≤ bound then
          completions weight n bound (stages + 1) (sizes ++ [hi - sizes.sum]) else []).length =
        (sizes.sum + 1 + m + stages - 1 - hi).choose stages := by
      intro hi hhi
      have hrange := List.mem_range'_1.mp hhi
      have hsum : (sizes ++ [hi - sizes.sum]).sum = hi := by
        rw [List.sum_append, List.sum_singleton]
        omega
      rw [if_pos (hbound _ (by omega : hi ≤ n)), ih (by omega), hsum]
      congr 1
      omega
    rw [completions, hm, List.length_flatMap, List.map_congr_left hlengths, sum_map_choose]
    congr 1
    omega

end completions

end weights

end MinMaxSplit
