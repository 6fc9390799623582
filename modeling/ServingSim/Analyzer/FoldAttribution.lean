import ServingSim.Analyzer.BalancedFold

/-
  What a balanced fold attributes to the leaves.

  A leaf's share of a subtree is a product of factors, one for each node on the way down;
  the values rolled up are the same factors applied to the children's values, so the
  shares of a subtree's leaves add up to its value. The wall-clock fold differs at a rank
  fan-out only, where it has the maximum in place of the mean.

  What is proved:
    1. `balanced_fold` — the fold's value, its attribution and the order of the rungs.
-/

namespace ServingSim

namespace BalancedFold

variable {R : Nat} {m : List FlatCostNode} {leafValue : Nat → Rungs R}

/-! ## Sums over children -/

theorem foldl_add_apply (values : List (Rungs R)) (acc : Rungs R) (r : Fin R) :
    values.foldl add acc r = acc r + (values.map fun value => value r).sum := by
  induction values generalizing acc with
  | nil => rw [List.foldl_nil, List.map_nil, List.sum_nil, add_zero]
  | cons value values ih =>
    rw [List.foldl_cons, ih, List.map_cons, List.sum_cons]
    exact add_assoc _ _ _

theorem foldl_larger_apply (values : List (Rungs R)) (acc : Rungs R) (r : Fin R) :
    values.foldl larger acc r = (values.map fun value => value r).foldl max (acc r) := by
  induction values generalizing acc with
  | nil => rfl
  | cons value values ih => exact ih _

theorem foldl_max_zero {times : List ℚ} (h : ∀ t ∈ times, 0 ≤ t) :
    times.foldl max 0 = times.max?.getD 0 := by
  cases times with
  | nil => rfl
  | cons t times =>
    rw [List.max?_cons', List.foldl_cons, max_eq_right (h t List.mem_cons_self)]
    rfl

variable {f : Nat → ℚ}

theorem forall_mem_map_nonneg {l : List Nat} (h : ∀ c ∈ l, 0 ≤ f c) :
    ∀ t ∈ l.map f, 0 ≤ t := by
  intro t ht
  obtain ⟨c, hc, rfl⟩ := List.mem_map.mp ht
  exact h c hc

theorem foldl_max_map_mono {l : List Nat} {f g : Nat → ℚ} (h : ∀ c ∈ l, f c ≤ g c) :
    (l.map f).foldl max 0 ≤ (l.map g).foldl max 0 := by
  have hacc : ∀ acc acc', acc ≤ acc' → (l.map f).foldl max acc ≤ (l.map g).foldl max acc' := by
    induction l with
    | nil => exact fun _ _ hle => hle
    | cons c l ih =>
      intro acc acc' hle
      exact ih (fun c hc => h c (List.mem_cons_of_mem _ hc)) _ _
        (max_le_max hle (h c List.mem_cons_self))
  exact hacc 0 0 (le_refl _)

theorem sum_map_ite_const {α : Type} (l : List α) (p : α → Prop) [DecidablePred p] (x : ℚ) :
    (l.map fun a => if p a then x else 0).sum = (l.filter p).length * x := by
  induction l with
  | nil => simp
  | cons a l ih =>
    rw [List.map_cons, List.sum_cons, ih]
    by_cases h : p a
    · rw [if_pos h, List.filter_cons_of_pos (by simpa using h), List.length_cons]
      push_cast
      ring
    · rw [if_neg h, List.filter_cons_of_neg (by simpa using h), zero_add]

theorem sum_map_eq_of_nodup {l : List Nat} (hl : l.Nodup) {c : Nat} (hc : c ∈ l)
    (h : ∀ c' ∈ l, c' ≠ c → f c' = 0) : (l.map f).sum = f c := by
  rw [← List.sum_toFinset f hl]
  refine Finset.sum_eq_single c (fun c' hc' hne => h c' (List.mem_toFinset.mp hc') hne)
    fun hnot => ?_
  exact absurd (List.mem_toFinset.mpr hc) hnot

/-! ## The slowest streams -/

/-- A stream that no sibling is slower than, at a rung. -/
def IsSlowest (value : Nat → Rungs R) (streams : List Nat) (r : Fin R) (c : Nat) : Prop :=
  ∀ c' ∈ streams, value c' r ≤ value c r

instance (value : Nat → Rungs R) (streams : List Nat) (r : Fin R) (c : Nat) :
    Decidable (IsSlowest value streams r c) :=
  inferInstanceAs (Decidable (∀ c' ∈ streams, value c' r ≤ value c r))

/-- The streams that tie for the slowest. -/
def tied (value : Nat → Rungs R) (streams : List Nat) (r : Fin R) : List Nat :=
  streams.filter fun c => IsSlowest value streams r c

variable {streams : List Nat}

theorem exists_slowest {value : Nat → Rungs R} (r : Fin R)
    (h : streams ≠ []) : ∃ c ∈ streams, IsSlowest value streams r c := by
  obtain ⟨c, hc, hmax⟩ := Finset.exists_max_image streams.toFinset (fun c => value c r)
    (List.toFinset_nonempty_iff _ |>.mpr h)
  exact ⟨c, List.mem_toFinset.mp hc, fun c' hc' => hmax c' (List.mem_toFinset.mpr hc')⟩

theorem length_tied_pos {value : Nat → Rungs R} {r : Fin R} {c : Nat}
    (hc : c ∈ streams) (h : IsSlowest value streams r c) :
    0 < (tied value streams r).length := by
  have hmem : c ∈ tied value streams r := List.mem_filter.mpr ⟨hc, by simpa using h⟩
  exact List.length_pos_of_mem hmem

theorem foldl_max_of_slowest {value : Nat → Rungs R} {r : Fin R} {c : Nat}
    (hnonneg : ∀ c ∈ streams, 0 ≤ value c r) (hc : c ∈ streams)
    (h : IsSlowest value streams r c) :
    (streams.map fun c => value c r).foldl max 0 = value c r := by
  have hmax : (streams.map fun c => value c r).max? = some (value c r) := by
    refine List.max?_eq_some_iff.mpr ⟨List.mem_map_of_mem hc, fun x hx => ?_⟩
    obtain ⟨c', hc', rfl⟩ := List.mem_map.mp hx
    exact h c' hc'
  rw [foldl_max_zero (forall_mem_map_nonneg hnonneg), hmax, Option.getD_some]

theorem slowest_spec (values : List (Rungs R)) (r : Fin R) :
    (∀ x ∈ values, (x r : WithBot ℚ) ≤ (values.foldl Slowest.take .start).max r) ∧
    (values ≠ [] → ∃ x ∈ values, (values.foldl Slowest.take .start).max r = x r) ∧
    (values.foldl Slowest.take .start).ties r =
      values.countP fun x => (x r : WithBot ℚ) = (values.foldl Slowest.take .start).max r := by
  induction values using List.reverseRecOn with
  | nil => exact ⟨by simp, fun h => absurd rfl h, rfl⟩
  | append_singleton values child ih =>
    obtain ⟨hle, hattained, hties⟩ := ih
    generalize hslowest : values.foldl Slowest.take .start = slowest at hle hattained hties
    rw [List.foldl_append, hslowest, List.foldl_cons, List.foldl_nil]
    simp only [Slowest.take, List.mem_append, List.mem_singleton, List.countP_append,
      List.countP_singleton]
    by_cases hlt : slowest.max r < child r
    · simp only [if_pos hlt]
      refine ⟨?_, fun _ => ⟨child, .inr rfl, rfl⟩, ?_⟩
      · rintro x (hx | rfl)
        · exact (hle x hx).trans hlt.le
        · exact le_refl _
      · have hnone : values.countP (fun x => (x r : WithBot ℚ) = child r) = 0 := by
          refine List.countP_eq_zero.mpr fun x hx heq => ?_
          have hsmaller := (hle x hx).trans_lt hlt
          exact absurd (by simpa using heq) (ne_of_lt hsmaller)
        rw [hnone]
        simp
    · simp only [if_neg hlt]
      refine ⟨?_, fun _ => ?_, ?_⟩
      · rintro x (hx | rfl)
        · exact hle x hx
        · exact not_lt.mp hlt
      · rcases eq_or_ne values [] with rfl | hne
        · -- before the first child the maximum is below every value
          obtain rfl := hslowest
          exact absurd (WithBot.bot_lt_coe (child r)) hlt
        · obtain ⟨x, hx, hmax⟩ := hattained hne
          exact ⟨x, .inl hx, hmax⟩
      · rw [hties]
        by_cases heq : (child r : WithBot ℚ) = slowest.max r
        · simp [heq]
        · simp [heq]

theorem streamWeight_eq {value : Nat → Rungs R} (weight : Rungs R)
    (divisor : ℚ) {c : Nat} (hc : c ∈ streams) (r : Fin R) :
    streamWeight weight divisor ((streams.map value).foldl Slowest.take .start) (value c) r =
      weight r * if IsSlowest value streams r c then 1 / divisor / (tied value streams r).length
        else 0 := by
  obtain ⟨hle, hattained, hties⟩ := slowest_spec (streams.map value) r
  have hmax : ∀ c ∈ streams, (value c r : WithBot ℚ) =
      ((streams.map value).foldl Slowest.take .start).max r ↔ IsSlowest value streams r c := by
    intro c hc
    constructor
    · intro heq c' hc'
      have := hle (value c') (List.mem_map_of_mem hc')
      rw [← heq] at this
      exact WithBot.coe_le_coe.mp this
    · intro hslowest
      obtain ⟨x, hx, hmax⟩ := hattained (by simpa using List.ne_nil_of_mem hc)
      obtain ⟨c', hc', rfl⟩ := List.mem_map.mp hx
      refine le_antisymm (hle _ (List.mem_map_of_mem hc)) ?_
      rw [hmax]
      exact WithBot.coe_le_coe.mpr (hslowest c' hc')
  have hcount : ((streams.map value).foldl Slowest.take .start).ties r =
      (tied value streams r).length := by
    rw [hties, List.countP_map, tied, ← List.countP_eq_length_filter]
    refine List.countP_congr fun c hc => ?_
    simpa using hmax c hc
  rw [streamWeight, hcount]
  by_cases hslowest : IsSlowest value streams r c
  · rw [if_pos ((hmax c hc).mpr hslowest), if_pos hslowest]
    ring
  · rw [if_neg fun h => hslowest ((hmax c hc).mp h), if_neg hslowest, mul_zero]

/-! ## Shares -/

/-- What a node multiplies its weight by on the way to a child. -/
def factor (value : Nat → Rungs R) (c : Nat) : FlatCostNode → Rungs R
  | .leaf _ => 0
  | .sum _ => 1
  | .scale n _ => fun _ => n
  | .max overlap range => fun _ =>
    1 / ((max range.places.length 1 : Nat) * overlapDivisor overlap)
  | .parallel overlap range => fun r =>
    if IsSlowest value range.places r c then
      1 / overlapDivisor overlap / (tied value range.places r).length
    else 0

theorem factor_parallel (value : Nat → Rungs R) (c : Nat) (overlap : ℚ) (range : ChildRange)
    (r : Fin R) : factor value c (.parallel overlap range) r =
      if IsSlowest value range.places r c then
        1 / overlapDivisor overlap / (tied value range.places r).length
      else 0 := rfl

/-- The part of a subtree's value that the leaf at a place has. -/
def share (m : List FlatCostNode) (leafValue : Nat → Rungs R) : Nat → Nat → Rungs R :=
  ForwardTree.value (childPlaces m) m.length fun i shares j r =>
    match m[i]? with
    | some (.leaf slot) => if j = i then leafValue slot r else 0
    | some node => ((node.visited.zip shares).map fun child =>
        factor (subtreeValue m leafValue) child.1 node r * child.2 j r).sum
    | none => 0

theorem share_leaf {i slot : Nat} (hm : FlatTree m) (h : m[i]? = some (.leaf slot)) (j : Nat)
    (r : Fin R) : share m leafValue i j r = if j = i then leafValue slot r else 0 := by
  rw [share, ForwardTree.value_eq hm.tree.toForward _ (List.getElem?_eq_some_iff.mp h).1, h]

variable {node : FlatCostNode} {i : Nat}

theorem share_composite (hm : FlatTree m) (h : m[i]? = some node)
    (hne : node.visited ≠ []) (j : Nat) (r : Fin R) :
    share m leafValue i j r = (node.visited.map fun c =>
      factor (subtreeValue m leafValue) c node r * share m leafValue c j r).sum := by
  have hzip : ∀ (l : List Nat) (f : Nat → Nat → Rungs R),
      l.zip (l.map f) = l.map fun c => (c, f c) := by
    intro l f
    induction l with
    | nil => rfl
    | cons c l ih => rw [List.map_cons, List.zip_cons_cons, ih, List.map_cons]
  rw [share, ForwardTree.value_eq hm.tree.toForward _ (List.getElem?_eq_some_iff.mp h).1, h,
    childPlaces_eq h]
  cases node with
  | leaf slot => exact absurd rfl hne
  | sum range => simp only [hzip, List.map_map]; rfl
  | scale n range => simp only [hzip, List.map_map]; rfl
  | max overlap range => simp only [hzip, List.map_map]; rfl
  | parallel overlap range => simp only [hzip, List.map_map]; rfl

theorem childPlaces_eq_nil_iff (hm : FlatTree m)
    (h : m[i]? = some node) : childPlaces m i = [] ↔ ∃ slot, node = .leaf slot := by
  have hplaces : ∀ range, node.children = some range → range.places ≠ [] := by
    intro range hrange
    have hlt := hm.nonempty node (List.mem_of_getElem? h) range hrange
    exact List.ne_nil_of_mem (ChildRange.mem_places.mpr ⟨le_refl _, hlt⟩)
  rw [childPlaces_eq h]
  cases node with
  | leaf slot => exact ⟨fun _ => ⟨slot, rfl⟩, fun _ => rfl⟩
  | sum range => simpa [FlatCostNode.visited] using hplaces range rfl
  | max overlap range => simpa [FlatCostNode.visited] using hplaces range rfl
  | parallel overlap range => simpa [FlatCostNode.visited] using hplaces range rfl
  | scale n range => simp [FlatCostNode.visited]

theorem share_eq_zero (hm : FlatTree m) {i j : Nat} (hi : i < m.length)
    (h : ¬ForwardTree.Below (childPlaces m) i j) (r : Fin R) : share m leafValue i j r = 0 := by
  revert h
  refine hm.tree.induction (P := fun i => ¬ForwardTree.Below (childPlaces m) i j →
    share m leafValue i j r = 0) (fun i hi ih h => ?_) i hi
  have hnode : m[i]? = some m[i] := List.getElem?_eq_getElem hi
  by_cases hleaf : childPlaces m i = []
  · obtain ⟨slot, hslot⟩ := (childPlaces_eq_nil_iff hm hnode).mp hleaf
    rw [share_leaf hm (hnode.trans (congrArg some hslot)), if_neg]
    rintro rfl
    exact h Relation.ReflTransGen.refl
  · rw [childPlaces_eq hnode] at hleaf ih
    rw [share_composite hm hnode hleaf]
    refine List.sum_eq_zero fun x hx => ?_
    obtain ⟨c, hc, rfl⟩ := List.mem_map.mp hx
    rw [ih c hc fun hbelow => h (hbelow.child (by rwa [childPlaces_eq hnode])), mul_zero]

theorem share_child (hm : FlatTree m) {i c j : Nat} (h : m[i]? = some node)
    (hc : c ∈ node.visited) (hbelow : ForwardTree.Below (childPlaces m) c j) (r : Fin R) :
    share m leafValue i j r =
      factor (subtreeValue m leafValue) c node r * share m leafValue c j r := by
  rw [share_composite hm h (List.ne_nil_of_mem hc)]
  refine sum_map_eq_of_nodup node.nodup_visited hc fun c' hc' hne => ?_
  rw [← childPlaces_eq h] at hc hc'
  have hapart := hm.tree.siblings_apart hc hc' (Ne.symm hne) hbelow
  rw [share_eq_zero hm (hm.tree.within i c' hc') hapart, mul_zero]

theorem exists_share_eq_mul (hm : FlatTree m) (leafValue : Nat → Rungs R) {i p : Nat}
    (h : ForwardTree.Below (childPlaces m) i p) (r : Fin R) :
    ∃ weight, ∀ j, ForwardTree.Below (childPlaces m) p j →
      share m leafValue i j r = weight * share m leafValue p j r := by
  induction h using Relation.ReflTransGen.head_induction_on with
  | refl => exact ⟨1, fun j _ => (one_mul _).symm⟩
  | head hc hbelow ih =>
    rename_i i c
    obtain ⟨weight, hweight⟩ := ih
    obtain ⟨node, range, hnode, -⟩ := mem_childPlaces hm hc
    rw [childPlaces_eq hnode] at hc
    refine ⟨factor (subtreeValue m leafValue) c node r * weight, fun j hj => ?_⟩
    rw [share_child hm hnode hc (hbelow.trans hj), hweight j hj, mul_assoc]

section combine

variable (l : List Nat) (value : Nat → Rungs R) (overlap : ℚ) (range : ChildRange) (r : Fin R)

theorem combine_sum :
    combine leafValue (l.map value) (.sum range) r = (l.map fun c => value c r).sum := by
  rw [combine, foldl_add_apply, List.map_map, Pi.zero_apply, zero_add]
  rfl

theorem combine_max : combine leafValue (l.map value) (.max overlap range) r =
      (l.map fun c => value c r).sum / ((max l.length 1 : Nat) * overlapDivisor overlap) := by
  show (l.map value).foldl add 0 r / _ = _
  rw [foldl_add_apply, List.map_map, Pi.zero_apply, zero_add, List.length_map]
  rfl

theorem combine_parallel : combine leafValue (l.map value) (.parallel overlap range) r =
      (l.map fun c => value c r).foldl max 0 / overlapDivisor overlap := by
  show (l.map value).foldl larger 0 r / _ = _
  rw [foldl_larger_apply, List.map_map, Pi.zero_apply]
  rfl

end combine

theorem combine_eq_sum (value : Nat → Rungs R) (hne : node.visited ≠ [])
    {r : Fin R} (hnonneg : ∀ c ∈ node.visited, 0 ≤ value c r) :
    combine leafValue (node.visited.map value) node r =
      (node.visited.map fun c => factor value c node r * value c r).sum := by
  cases node with
  | leaf slot => exact absurd rfl hne
  | sum range =>
    rw [combine_sum]
    simp only [factor, Pi.one_apply, one_mul]
  | scale n range =>
    show _ = ([(n : ℚ) * value range.start r] : List ℚ).sum
    rw [List.sum_singleton, mul_comm]
    rfl
  | max overlap range =>
    rw [combine_max]
    simp only [factor, List.sum_map_mul_left]
    rw [div_mul_eq_mul_div, one_mul]
    rfl
  | parallel overlap range =>
    change range.places ≠ [] at hne
    change ∀ c ∈ range.places, 0 ≤ value c r at hnonneg
    obtain ⟨top, htop, hslowest⟩ :=
      (exists_slowest r hne : ∃ c ∈ range.places, IsSlowest value range.places r c)
    -- each of the slowest adds the same part of their common value
    have hterm : ∀ c ∈ range.places, factor value c (.parallel overlap range) r * value c r =
        if IsSlowest value range.places r c then
          1 / overlapDivisor overlap / (tied value range.places r).length * value top r
        else 0 := by
      intro c hc
      rw [factor_parallel]
      by_cases hc' : IsSlowest value range.places r c
      · rw [if_pos hc', if_pos hc', le_antisymm (hslowest c hc) (hc' top htop)]
      · rw [if_neg hc', if_neg hc', zero_mul]
    have hties : ((tied value range.places r).length : ℚ) ≠ 0 :=
      Nat.cast_ne_zero.mpr (length_tied_pos htop hslowest).ne'
    rw [combine_parallel, FlatCostNode.visited, foldl_max_of_slowest hnonneg htop hslowest,
      List.map_congr_left hterm, sum_map_ite_const]
    show value top r / overlapDivisor overlap = (tied value range.places r).length * _
    field_simp

theorem overlapDivisor_pos (overlap : ℚ) : 0 < overlapDivisor overlap :=
  lt_max_of_lt_right (by norm_num)

theorem factor_nonneg (value : Nat → Rungs R) (c : Nat) (node : FlatCostNode) (r : Fin R) :
    0 ≤ factor value c node r := by
  cases node with
  | leaf slot => exact le_refl _
  | sum range => exact zero_le_one
  | scale n range => exact Nat.cast_nonneg n
  | max overlap range =>
    have := overlapDivisor_pos overlap
    exact div_nonneg zero_le_one (mul_nonneg (Nat.cast_nonneg _) this.le)
  | parallel overlap range =>
    have := overlapDivisor_pos overlap
    show 0 ≤ ite _ _ _
    split
    · positivity
    · exact le_refl _

theorem subtreeValue_nonneg (hm : FlatTree m) {r : Fin R} (hleaf : ∀ slot, 0 ≤ leafValue slot r)
    (hi : i < m.length) : 0 ≤ subtreeValue m leafValue i r := by
  refine hm.tree.induction (P := fun i => 0 ≤ subtreeValue m leafValue i r)
    (fun i hi ih => ?_) i hi
  have hnode : m[i]? = some m[i] := List.getElem?_eq_getElem hi
  rw [childPlaces_eq hnode] at ih
  rw [subtreeValue_eq hm hnode]
  by_cases hne : m[i].visited = []
  · obtain ⟨slot, hslot⟩ := (childPlaces_eq_nil_iff hm hnode).mp ((childPlaces_eq hnode).trans hne)
    rw [hslot]
    exact hleaf slot
  · rw [combine_eq_sum _ hne ih]
    refine List.sum_nonneg fun x hx => ?_
    obtain ⟨c, hc, rfl⟩ := List.mem_map.mp hx
    exact mul_nonneg (factor_nonneg _ c _ r) (ih c hc)

theorem sum_share (hm : FlatTree m) {r : Fin R} (hleaf : ∀ slot, 0 ≤ leafValue slot r)
    (hi : i < m.length) :
    ((ForwardTree.leavesBelow (childPlaces m) m.length i).map fun j =>
      share m leafValue i j r).sum = subtreeValue m leafValue i r := by
  refine hm.tree.induction (P := fun i =>
    ((ForwardTree.leavesBelow (childPlaces m) m.length i).map fun j =>
      share m leafValue i j r).sum = subtreeValue m leafValue i r) (fun i hi ih => ?_) i hi
  have hnode : m[i]? = some m[i] := List.getElem?_eq_getElem hi
  rw [ForwardTree.leavesBelow_eq hm.tree.toForward hi, subtreeValue_eq hm hnode]
  by_cases hleafNode : childPlaces m i = []
  · obtain ⟨slot, hslot⟩ := (childPlaces_eq_nil_iff hm hnode).mp hleafNode
    rw [if_pos hleafNode, hslot, List.map_singleton, List.sum_singleton,
      share_leaf hm (hnode.trans (congrArg some hslot)), if_pos rfl, combine]
  · rw [if_neg hleafNode, childPlaces_eq hnode]
    rw [childPlaces_eq hnode] at hleafNode ih
    have hwithin : ∀ c ∈ m[i].visited, c < m.length := fun c hc =>
      hm.tree.within i c (by rwa [childPlaces_eq hnode])
    rw [combine_eq_sum _ hleafNode fun c hc => subtreeValue_nonneg hm hleaf (hwithin c hc),
      List.map_flatMap, List.flatMap_def, List.sum_flatten, List.map_map]
    refine congrArg List.sum (List.map_congr_left fun c hc => ?_)
    rw [← ih c hc, ← List.sum_map_mul_left]
    refine congrArg List.sum (List.map_congr_left fun j hj => ?_)
    have hbelow := (ForwardTree.mem_leavesBelow hm.tree.toForward (hwithin c hc)).mp hj
    exact share_child hm hnode hc hbelow.1 r

/-! ## Pushing down -/

/-- The slot of a leaf. -/
def leafSlot (m : List FlatCostNode) (j : Nat) : Nat :=
  match m[j]? with
  | some (.leaf slot) => slot
  | _ => 0

theorem mapM_some {α β : Type} {l : List α} {f : α → Option β} {g : α → β}
    (h : ∀ a ∈ l, f a = some (g a)) : l.mapM f = some (l.map g) := by
  induction l with
  | nil => rfl
  | cons a l ih =>
    rw [List.mapM_cons, h a List.mem_cons_self, ih fun b hb => h b (List.mem_cons_of_mem _ hb)]
    rfl

theorem attributeWeight_composite {values : List (Rungs R)} {value : Nat → Rungs R} {turns i : Nat}
    (h : m[i]? = some node) (hne : node.visited ≠ [])
    (hvalues : ∀ c ∈ node.visited, values[c]? = some (value c)) (weight : Rungs R) :
    attributeWeight m values (turns + 1) i weight =
      attributeChildren (attributeWeight m values turns) node.visited
        fun c => some fun r => weight r * factor value c node r := by
  rw [attributeWeight, h, Option.bind_eq_bind, Option.bind_some]
  cases node with
  | leaf slot => exact absurd rfl hne
  | sum range => simp only [factor, Pi.one_apply, mul_one]; rfl
  | scale n range => rfl
  | max overlap range => simp only [factor, mul_one_div]; rfl
  | parallel overlap range =>
    have hread : range.places.mapM (fun c => values[c]?) = some (range.places.map value) :=
      mapM_some hvalues
    show (range.places.mapM (fun c => values[c]?) >>= _) = _
    rw [hread, Option.bind_eq_bind, Option.bind_some]
    refine congrArg (· >>= fun visits => some visits.flatten)
      (mapM_congr (m := Option) fun c hc => ?_)
    simp only [hvalues c hc, Option.map_some, Option.bind_eq_bind, Option.bind_some]
    refine congrArg (attributeWeight m values turns c) (funext fun r => ?_)
    exact streamWeight_eq weight _ hc r

theorem attributeWeight_spec (hm : FlatTree m) {values : List (Rungs R)} {turns i : Nat}
    (hi : i < m.length) (hturns : m.length - i ≤ turns)
    (hvalues : ∀ j, ForwardTree.Below (childPlaces m) i j →
      values[j]? = some (subtreeValue m leafValue j)) (weight : Rungs R) :
    attributeWeight m values turns i weight =
      some ((ForwardTree.leavesBelow (childPlaces m) m.length i).map fun j =>
        (leafSlot m j, fun r => weight r * share m leafValue i j r)) := by
  induction turns generalizing i weight with
  | zero => exact absurd hturns (by omega)
  | succ turns ih =>
    have hnode : m[i]? = some m[i] := List.getElem?_eq_getElem hi
    rw [ForwardTree.leavesBelow_eq hm.tree.toForward hi]
    by_cases hleafNode : childPlaces m i = []
    · obtain ⟨slot, hslot⟩ := (childPlaces_eq_nil_iff hm hnode).mp hleafNode
      have hleaf : m[i]? = some (.leaf slot) := hnode.trans (congrArg some hslot)
      have hvalue := hvalues i Relation.ReflTransGen.refl
      rw [subtreeValue_eq hm hleaf, combine] at hvalue
      have hslotAt : leafSlot m i = slot := by rw [leafSlot, hleaf]
      rw [if_pos hleafNode, attributeWeight, hleaf, Option.bind_eq_bind, Option.bind_some]
      simp only [hvalue, Option.bind_eq_bind, Option.bind_some, List.map_singleton, hslotAt,
        share_leaf hm hleaf, if_true]
    · rw [if_neg hleafNode, childPlaces_eq hnode]
      rw [childPlaces_eq hnode] at hleafNode
      have hchild : ∀ c ∈ m[i].visited, c ∈ childPlaces m i := fun c hc => by
        rwa [childPlaces_eq hnode]
      rw [attributeWeight_composite hnode hleafNode fun c hc =>
        hvalues c (Relation.ReflTransGen.single (hchild c hc))]
      unfold attributeChildren
      rw [mapM_some (g := fun c => (ForwardTree.leavesBelow (childPlaces m) m.length c).map fun j =>
        (leafSlot m j, fun r => weight r * share m leafValue i j r)) fun c hc => ?_]
      · simp only [Option.bind_eq_bind, Option.bind_some, List.flatMap_def, List.map_flatten,
          List.map_map]
        rfl
      · have hwithin := hm.tree.within i c (hchild c hc)
        have hbehind := hm.tree.behind i c (hchild c hc)
        simp only [Option.bind_eq_bind, Option.bind_some]
        rw [ih hwithin (by omega) fun j hj => hvalues j (hj.child (hchild c hc))]
        refine congrArg some (List.map_congr_left fun j hj => ?_)
        have hbelow := (ForwardTree.mem_leavesBelow hm.tree.toForward hwithin).mp hj
        refine congrArg (Prod.mk _) (funext fun r => ?_)
        rw [share_child hm hnode hc hbelow.1 r, mul_assoc]

/-! ## The order of the rungs -/

theorem subtreeValue_mono (hm : FlatTree m) {leafValue' : Nat → Rungs R} {r : Fin R}
    (h : ∀ slot, leafValue' slot r ≤ leafValue slot r) (hi : i < m.length) :
    subtreeValue m leafValue' i r ≤ subtreeValue m leafValue i r := by
  refine hm.tree.induction (P := fun i => subtreeValue m leafValue' i r ≤
    subtreeValue m leafValue i r) (fun i hi ih => ?_) i hi
  have hnode : m[i]? = some m[i] := List.getElem?_eq_getElem hi
  rw [childPlaces_eq hnode] at ih
  rw [subtreeValue_eq hm hnode, subtreeValue_eq hm hnode]
  cases hcase : m[i] with
  | leaf slot => exact h slot
  | sum range =>
    rw [hcase] at ih
    rw [combine_sum, combine_sum]
    exact List.sum_le_sum ih
  | scale n range =>
    rw [hcase] at ih
    exact mul_le_mul_of_nonneg_right (ih _ List.mem_cons_self) (Nat.cast_nonneg n)
  | max overlap range =>
    rw [hcase] at ih
    have := overlapDivisor_pos overlap
    rw [combine_max, combine_max]
    exact div_le_div_of_nonneg_right (List.sum_le_sum ih) (by positivity)
  | parallel overlap range =>
    rw [hcase] at ih
    have := overlapDivisor_pos overlap
    rw [combine_parallel, combine_parallel]
    exact div_le_div_of_nonneg_right (foldl_max_map_mono ih) this.le

/-! ## Wall-clock time -/

/-- A node's wall-clock time from its children's. -/
def combineTime (slotNs : List Int) (times : List ℚ) : FlatCostNode → ℚ
  | .leaf slot => slotNs.getD slot 0
  | .sum _ => times.sum
  | .max overlap _ | .parallel overlap _ => times.max?.getD 0 / overlapDivisor overlap
  | .scale n _ => n * times.headD 0

def wallclock (m : List FlatCostNode) (slotNs : List Int) : Nat → ℚ :=
  ForwardTree.value (childPlaces m) m.length fun i times =>
    match m[i]? with
    | some node => combineTime slotNs times node
    | none => 0

theorem wallclock_eq {slotNs : List Int} (hm : FlatTree m)
    (h : m[i]? = some node) :
    wallclock m slotNs i = combineTime slotNs (node.visited.map (wallclock m slotNs)) node := by
  rw [wallclock, ForwardTree.value_eq hm.tree.toForward _ (List.getElem?_eq_some_iff.mp h).1, h,
    childPlaces_eq h]

theorem exactNodeTime_eq (hm : FlatTree m) (slotNs : List Int) {turns i : Nat} (hi : i < m.length)
    (hturns : m.length - i ≤ turns) :
    exactNodeTime m slotNs turns i = some (wallclock m slotNs i) := by
  induction turns generalizing i with
  | zero => exact absurd hturns (by omega)
  | succ turns ih =>
    have hnode : m[i]? = some m[i] := List.getElem?_eq_getElem hi
    have hchild : ∀ c ∈ m[i].visited,
        exactNodeTime m slotNs turns c = some (wallclock m slotNs c) := by
      intro c hc
      rw [← childPlaces_eq hnode] at hc
      have hbehind := hm.tree.behind i c hc
      exact ih (hm.tree.within i c hc) (by omega)
    have htimes : m[i].visited.mapM (exactNodeTime m slotNs turns) =
        some (m[i].visited.map (wallclock m slotNs)) := mapM_some hchild
    rw [wallclock_eq hm hnode, exactNodeTime, hnode, Option.bind_eq_bind, Option.bind_some]
    cases hcase : m[i] with
    | leaf slot => rfl
    | sum range =>
      rw [hcase] at htimes
      exact congrArg (Option.bind · _) htimes
    | max overlap range =>
      rw [hcase] at htimes
      exact congrArg (Option.bind · _) htimes
    | parallel overlap range =>
      rw [hcase] at htimes
      exact congrArg (Option.bind · _) htimes
    | scale n range =>
      rw [hcase] at hchild
      simp only [hchild _ List.mem_cons_self, Option.bind_eq_bind, Option.bind_some]
      rfl

/-- The rung at which the leaves have their wall-clock times. -/
def AtWallclock (leafValue : Nat → Rungs R) (slotNs : List Int) (r : Fin R) : Prop :=
  ∀ slot, leafValue slot r = slotNs.getD slot 0

theorem mean_le_max {l : List Nat} (hl : l ≠ []) (hf : ∀ c ∈ l, 0 ≤ f c) :
    (l.map f).sum / (max l.length 1 : Nat) ≤ (l.map f).foldl max 0 := by
  have hpos := List.length_pos_iff.mpr hl
  have hle : ∀ t ∈ l.map f, t ≤ (l.map f).foldl max 0 := by
    intro t ht
    obtain ⟨top, htop⟩ : ∃ top, (l.map f).max? = some top := by
      cases hmax : (l.map f).max? with
      | none => exact absurd (List.max?_eq_none_iff.mp hmax) (List.ne_nil_of_mem ht)
      | some top => exact ⟨top, rfl⟩
    rw [foldl_max_zero (forall_mem_map_nonneg hf), htop, Option.getD_some]
    exact (List.max?_eq_some_iff.mp htop).2 t ht
  have hsum := List.sum_le_card_nsmul (l.map f) _ hle
  rw [List.length_map, nsmul_eq_mul] at hsum
  rw [max_eq_left (show 1 ≤ l.length from hpos), div_le_iff₀ (by exact_mod_cast hpos), mul_comm]
  exact hsum

theorem combineTime_overlapped {l : List Nat} (hf : ∀ c ∈ l, 0 ≤ f c)
    (slotNs : List Int) (overlap : ℚ) (range : ChildRange) :
    combineTime slotNs (l.map f) (.parallel overlap range) =
      (l.map f).foldl max 0 / overlapDivisor overlap := by
  rw [combineTime, foldl_max_zero (forall_mem_map_nonneg hf)]

section

variable (hm : FlatTree m) {slotNs : List Int} {r : Fin R} (hleaf : ∀ slot, 0 ≤ leafValue slot r)
  (hwall : AtWallclock leafValue slotNs r) (hi : i < m.length)

include hm slotNs r hleaf hwall hi

theorem subtreeValue_le_wallclock : subtreeValue m leafValue i r ≤ wallclock m slotNs i := by
  refine hm.tree.induction (P := fun i => subtreeValue m leafValue i r ≤ wallclock m slotNs i)
    (fun i hi ih => ?_) i hi
  have hnode : m[i]? = some m[i] := List.getElem?_eq_getElem hi
  rw [subtreeValue_eq hm hnode, wallclock_eq hm hnode]
  have hnonneg : ∀ c ∈ childPlaces m i, 0 ≤ subtreeValue m leafValue c r := fun c hc =>
    subtreeValue_nonneg hm hleaf (hm.tree.within i c hc)
  have hleafNode := childPlaces_eq_nil_iff hm hnode
  rw [childPlaces_eq hnode] at ih hnonneg hleafNode
  cases hcase : m[i] with
  | leaf slot => exact (hwall slot).le
  | sum range =>
    rw [hcase] at ih
    rw [combine_sum, combineTime]
    exact List.sum_le_sum ih
  | scale n range =>
    rw [hcase] at ih
    show subtreeValue m leafValue range.start r * n ≤ n * wallclock m slotNs range.start
    rw [mul_comm]
    exact mul_le_mul_of_nonneg_left (ih _ List.mem_cons_self) (Nat.cast_nonneg n)
  | max overlap range =>
    rw [hcase] at ih hnonneg hleafNode
    have hne : (FlatCostNode.max overlap range).visited ≠ [] := fun h => by
      obtain ⟨slot, hslot⟩ := hleafNode.mp h
      cases hslot
    have htimes := combineTime_overlapped (fun c hc => (hnonneg c hc).trans (ih c hc)) slotNs
      overlap range
    rw [combine_max, ← div_div]
    refine (div_le_div_of_nonneg_right ?_ (overlapDivisor_pos overlap).le).trans_eq htimes.symm
    exact (mean_le_max hne hnonneg).trans (foldl_max_map_mono ih)
  | parallel overlap range =>
    rw [hcase] at ih hnonneg
    rw [combine_parallel, combineTime_overlapped fun c hc => (hnonneg c hc).trans (ih c hc)]
    exact div_le_div_of_nonneg_right (foldl_max_map_mono ih) (overlapDivisor_pos overlap).le

theorem subtreeValue_eq_wallclock (hmax : ∀ j, ForwardTree.Below (childPlaces m) i j →
      ∀ overlap range, m[j]? ≠ some (.max overlap range)) :
    subtreeValue m leafValue i r = wallclock m slotNs i := by
  revert hmax
  refine hm.tree.induction (P := fun i => (∀ j, ForwardTree.Below (childPlaces m) i j →
    ∀ overlap range, m[j]? ≠ some (.max overlap range)) →
    subtreeValue m leafValue i r = wallclock m slotNs i) (fun i hi ih hmax => ?_) i hi
  have hnode : m[i]? = some m[i] := List.getElem?_eq_getElem hi
  have hnonneg : ∀ c ∈ childPlaces m i, 0 ≤ subtreeValue m leafValue c r := fun c hc =>
    subtreeValue_nonneg hm hleaf (hm.tree.within i c hc)
  have hchild : ∀ c ∈ childPlaces m i, subtreeValue m leafValue c r = wallclock m slotNs c :=
    fun c hc => ih c hc fun j hj => hmax j (hj.child hc)
  rw [subtreeValue_eq hm hnode, wallclock_eq hm hnode]
  rw [childPlaces_eq hnode] at hchild hnonneg
  cases hcase : m[i] with
  | leaf slot => exact hwall slot
  | sum range =>
    rw [hcase] at hchild
    rw [combine_sum, combineTime, List.map_congr_left hchild]
  | scale n range =>
    rw [hcase] at hchild
    show subtreeValue m leafValue range.start r * n = n * wallclock m slotNs range.start
    rw [hchild _ List.mem_cons_self, mul_comm]
  | max overlap range =>
    exact absurd (hnode.trans (congrArg some hcase)) (hmax i Relation.ReflTransGen.refl _ _)
  | parallel overlap range =>
    rw [hcase] at hchild hnonneg
    rw [combine_parallel, List.map_congr_left hchild, combineTime_overlapped fun c hc => ?_]
    exact (hnonneg c hc).trans_eq (hchild c hc)

end

/-! ## The fold -/

/-- How a fold's calls of `visit` come about: each leaf node below the root is visited once,
the contributions add up to the value, and of concurrent streams the slowest have all of it,
in equal parts. -/
structure Attribution (m : List FlatCostNode) (leafValue : Nat → Rungs R) (root : Nat)
    (folded : Folded R) (leaves : List Nat) (contribution : Nat → Rungs R) : Prop where
  nodup : leaves.Nodup
  leaf : ∀ j, j ∈ leaves ↔
    ForwardTree.Below (childPlaces m) root j ∧ ∃ slot, m[j]? = some (.leaf slot)
  visits : folded.visits = leaves.map fun j => (leafSlot m j, contribution j)
  total : ∀ r, (folded.visits.map fun visit => visit.2 r).sum = folded.value r
  hidden : ∀ (p : Nat) (overlap : ℚ) (range : ChildRange) (r : Fin R),
    ForwardTree.Below (childPlaces m) root p → m[p]? = some (.parallel overlap range) →
    ∀ c ∈ range.places, ¬IsSlowest (subtreeValue m leafValue) range.places r c →
    ∀ j, ForwardTree.Below (childPlaces m) c j → contribution j r = 0
  even : ∀ (p : Nat) (overlap : ℚ) (range : ChildRange) (r : Fin R),
    ForwardTree.Below (childPlaces m) root p → m[p]? = some (.parallel overlap range) →
    ∀ c ∈ range.places, IsSlowest (subtreeValue m leafValue) range.places r c →
    (tied (subtreeValue m leafValue) range.places r).length *
        ((ForwardTree.leavesBelow (childPlaces m) m.length c).map fun j =>
          contribution j r).sum =
      ((ForwardTree.leavesBelow (childPlaces m) m.length p).map fun j => contribution j r).sum

theorem sum_contribution (hm : FlatTree m) {p : Nat} {r : Fin R} {k : ℚ} (hp : p < m.length)
    (hleaf : ∀ slot, 0 ≤ leafValue slot r) {contribution : Nat → ℚ}
    (h : ∀ j, ForwardTree.Below (childPlaces m) p j →
      contribution j = k * share m leafValue p j r) :
    ((ForwardTree.leavesBelow (childPlaces m) m.length p).map contribution).sum =
      k * subtreeValue m leafValue p r := by
  rw [← sum_share hm hleaf hp, ← List.sum_map_mul_left]
  refine congrArg List.sum (List.map_congr_left fun j hj => ?_)
  exact h j ((ForwardTree.mem_leavesBelow hm.tree.toForward hp).mp hj).1

theorem Below.lt_length (hm : FlatTree m) {i j : Nat}
    (h : ForwardTree.Below (childPlaces m) i j) (hi : i < m.length) : j < m.length := by
  induction h with
  | refl => exact hi
  | tail _ hc _ => exact hm.tree.within _ _ hc

theorem fold_spec (hm : FlatTree m) {root : Nat} (hroot : root < m.length) (scale : ℚ)
    (leafValue : Nat → Rungs R) (scratch : List (Rungs R)) :
    ∃ after, fold m root scale leafValue scratch = some
      { value := fun r => subtreeValue m leafValue root r * scale
        visits := (ForwardTree.leavesBelow (childPlaces m) m.length root).map fun j =>
          (leafSlot m j, fun r => scale * share m leafValue root j r)
        scratch := after } := by
  have hsize : m.length ≤
      (if scratch.length < m.length then resize scratch m.length 0 else scratch).length := by
    split
    · next hshort =>
      rw [Lowering.resize_grow scratch 0 hshort.le, List.length_append, List.length_replicate]
      omega
    · next hlong => exact not_lt.mp hlong
  obtain ⟨after, hafter, hsettled⟩ := evaluate_spec hm leafValue hroot (Nat.sub_le _ _) hsize
  refine ⟨after, ?_⟩
  rw [fold, hafter, Option.bind_eq_bind, Option.bind_some,
    attributeWeight_spec hm hroot (Nat.sub_le _ _) hsettled.right]
  rfl

theorem attribution (hm : FlatTree m) (hleaf : ∀ slot r, 0 ≤ leafValue slot r) {root : Nat}
    (hroot : root < m.length) {scale : ℚ} {scratch : List (Rungs R)} {folded : Folded R}
    (h : fold m root scale leafValue scratch = some folded) :
    Attribution m leafValue root folded (ForwardTree.leavesBelow (childPlaces m) m.length root)
      fun j r => scale * share m leafValue root j r := by
  obtain ⟨after, hfold⟩ := fold_spec hm hroot scale leafValue scratch
  obtain rfl := Option.some.inj (h.symm.trans hfold)
  -- what is below a stream, in terms of the stream's own shares
  have hstream : ∀ (p : Nat) (overlap : ℚ) (range : ChildRange) (r : Fin R),
      ForwardTree.Below (childPlaces m) root p → m[p]? = some (.parallel overlap range) →
      ∃ k, (∀ j, ForwardTree.Below (childPlaces m) p j →
          scale * share m leafValue root j r = k * share m leafValue p j r) ∧
        ∀ c ∈ range.places, ∀ j, ForwardTree.Below (childPlaces m) c j →
          scale * share m leafValue root j r =
            k * factor (subtreeValue m leafValue) c (.parallel overlap range) r *
              share m leafValue c j r := by
    intro p overlap range r hp hnode
    obtain ⟨weight, hweight⟩ := exists_share_eq_mul hm leafValue hp r
    refine ⟨scale * weight, fun j hj => by rw [hweight j hj, mul_assoc], fun c hc j hj => ?_⟩
    have hchild : c ∈ childPlaces m p := by rwa [childPlaces_eq hnode]
    rw [hweight j (hj.child hchild), share_child hm hnode hc hj r]
    ring
  exact
    { nodup := ForwardTree.nodup_leavesBelow hm.tree hroot
      leaf := fun j => by
        rw [ForwardTree.mem_leavesBelow hm.tree.toForward hroot]
        refine and_congr_right fun hbelow => ?_
        obtain ⟨node, hnode⟩ : ∃ node, m[j]? = some node :=
          ⟨_, List.getElem?_eq_getElem (Below.lt_length hm hbelow hroot)⟩
        rw [childPlaces_eq_nil_iff hm hnode, hnode]
        simp only [Option.some.injEq]
      visits := rfl
      total := fun r => by
        show (List.map _ (List.map _ _)).sum = subtreeValue m leafValue root r * scale
        rw [List.map_map, mul_comm]
        exact sum_contribution hm hroot (fun slot => hleaf slot r) fun j _ => rfl
      hidden := fun p overlap range r hp hnode c hc hnot j hj => by
        obtain ⟨k, -, hk⟩ := hstream p overlap range r hp hnode
        show scale * share m leafValue root j r = 0
        rw [hk c hc j hj, factor_parallel, if_neg hnot, mul_zero, zero_mul]
      even := fun p overlap range r hp hnode c hc hslowest => by
        obtain ⟨k, hparent, hk⟩ := hstream p overlap range r hp hnode
        have hwithin := Below.lt_length hm hp hroot
        have hplaces : ∀ c ∈ range.places, c < m.length := fun c hc =>
          hm.tree.within p c (by rwa [childPlaces_eq hnode])
        have hties : ((tied (subtreeValue m leafValue) range.places r).length : ℚ) ≠ 0 :=
          Nat.cast_ne_zero.mpr (length_tied_pos hc hslowest).ne'
        rw [sum_contribution hm hwithin (fun slot => hleaf slot r) hparent,
          sum_contribution hm (hplaces c hc) (fun slot => hleaf slot r) (hk c hc),
          subtreeValue_eq hm hnode, FlatCostNode.visited, combine_parallel, factor_parallel,
          if_pos hslowest, foldl_max_of_slowest (fun c hc =>
            subtreeValue_nonneg hm (fun slot => hleaf slot r) (hplaces c hc)) hc hslowest]
        field_simp }

/-- A fold attributes its value to the leaf nodes, each visited once, over any scratch; its
rungs keep the order of their leaf values, and the balanced rung is below the wall clock. -/
theorem balanced_fold (hm : FlatTree m) (hleaf : ∀ slot r, 0 ≤ leafValue slot r) {root : Nat}
    (hroot : root < m.length) (scale : ℚ) (scratch : List (Rungs R)) :
    ∃ folded, fold m root scale leafValue scratch = some folded ∧
      (folded.value = fun r => subtreeValue m leafValue root r * scale) ∧
      (∃ leaves contribution, Attribution m leafValue root folded leaves contribution) ∧
      (∀ (leafValue' : Nat → Rungs R) (scratch' : List (Rungs R)) (r : Fin R), 0 ≤ scale →
        (∀ slot, leafValue' slot r ≤ leafValue slot r) →
        ∃ folded', fold m root scale leafValue' scratch' = some folded' ∧
          folded'.value r ≤ folded.value r) ∧
      ∀ (slotNs : List Int) (r : Fin R), 0 ≤ scale → AtWallclock leafValue slotNs r →
        ∃ time, exactNodeTime m slotNs m.length root = some time ∧ folded.value r ≤ time * scale ∧
          ((∀ j, ForwardTree.Below (childPlaces m) root j →
            ∀ overlap range, m[j]? ≠ some (.max overlap range)) →
            folded.value r = time * scale) := by
  obtain ⟨after, hfold⟩ := fold_spec hm hroot scale leafValue scratch
  refine ⟨_, hfold, rfl, ⟨_, _, attribution hm hleaf hroot hfold⟩, ?_, ?_⟩
  · intro leafValue' scratch' r hscale hle
    obtain ⟨after', hfold'⟩ := fold_spec hm hroot scale leafValue' scratch'
    exact ⟨_, hfold', mul_le_mul_of_nonneg_right (subtreeValue_mono hm hle hroot) hscale⟩
  · intro slotNs r hscale hwall
    have hleaf' : ∀ slot, 0 ≤ leafValue slot r := fun slot => hleaf slot r
    refine ⟨wallclock m slotNs root, exactNodeTime_eq hm slotNs hroot (Nat.sub_le _ _), ?_, ?_⟩
    · exact mul_le_mul_of_nonneg_right (subtreeValue_le_wallclock hm hleaf' hwall hroot) hscale
    · intro hmax
      exact congrArg (· * scale) (subtreeValue_eq_wallclock hm hleaf' hwall hroot hmax)

/-- A repeat over concurrent streams and a rank fan-out. -/
def streamTree : List FlatCostNode :=
  [.scale 2 ⟨1, 2⟩, .sum ⟨2, 4⟩, .parallel (1 / 2) ⟨4, 6⟩, .max 1 ⟨6, 8⟩, .leaf 0, .leaf 1,
    .leaf 1, .leaf 2]

/-- At the first rung the streams tie, at the second one hides the other. -/
def streamValue (slot : Nat) (r : Fin 2) : ℚ :=
  (([[3, 5], [3, 2], [1, 4]] : List (List ℚ)).getD slot []).getD r 0

theorem balanced_fold_streams : ∃ folded, fold streamTree 0 1 streamValue [] = some folded ∧
      List.ofFn folded.value = [16, 26] ∧
      folded.visits.map (fun visit => (visit.1, List.ofFn visit.2)) =
        [(0, [6, 20]), (1, [6, 0]), (1, [3, 2]), (2, [1, 4])] := by
  have hm : FlatTree streamTree := flatTree_of_forall (by decide)
  have hleaf : ∀ slot (r : Fin 2), 0 ≤ streamValue slot r := by
    intro slot r
    rcases slot with _ | _ | _ | slot
    · revert r; decide
    · revert r; decide
    · revert r; decide
    · simp [streamValue]
  obtain ⟨folded, hfold, -⟩ := balanced_fold hm hleaf (show 0 < streamTree.length by decide) 1 []
  refine ⟨folded, hfold, ?_⟩
  have hrun : (fold streamTree 0 1 streamValue []).map (fun folded =>
      (List.ofFn folded.value, folded.visits.map fun visit => (visit.1, List.ofFn visit.2))) =
      some ([16, 26], [(0, [6, 20]), (1, [6, 0]), (1, [3, 2]), (2, [1, 4])]) := by
    decide +kernel
  rw [hfold] at hrun
  exact Prod.mk.inj (Option.some.inj hrun)

end BalancedFold

end ServingSim
