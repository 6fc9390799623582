import ServingSim.Analyzer.TimeAttribution
import Mathlib.Algebra.BigOperators.Intervals

/-
  What a row's root time is attributed to (`breakdown::kernel_time_share`, the pass down).

  A node hands its weight to its heirs: all children of a sum, the slowest of a fan-out. The
  weights times the times of the nodes still ahead, together with the shares already handed
  out, stay the root's weight times its time, which is one.

  What is proved:
    1. `kernel_time_shares` — the shares of a row.
-/

namespace ServingSim

namespace KernelTimeShare

open CostNode

/-! ## What a node hands down -/

/-- The children that a node hands its weight to. -/
def heirs (times : List ℚ) : FlatCostNode → List Nat
  | .leaf _ => []
  | .sum children => children.places
  | .scale _ children => [children.start]
  | .max _ children | .parallel _ children => critical times children

/-- The weight that each heir gets. -/
def handedWeight (times : List ℚ) (weight : ℚ) : FlatCostNode → ℚ
  | .leaf _ => 0
  | .sum _ => weight
  | .scale n _ => weight * n
  | .max overlap children | .parallel overlap children =>
    weight / overlapDivisor overlap / (critical times children).length

/-- The share that a node keeps. -/
def keptShare (slotTimes : List ℚ) (weight : ℚ) : FlatCostNode → ℚ
  | .leaf slot => slotTimes.getD slot 0 * weight
  | .sum _ | .max _ _ | .parallel _ _ | .scale _ _ => 0

/-- The share that a node keeps for a position. -/
def keptFor (slotPositionIds : List Nat) (slotTimes : List ℚ) (weight : ℚ) (position : Nat) :
    FlatCostNode → ℚ
  | .leaf slot =>
    if slotPositionIds.getD slot 0 = position then slotTimes.getD slot 0 * weight else 0
  | .sum _ | .max _ _ | .parallel _ _ | .scale _ _ => 0

/-- A position's share in a sparse list. -/
def shareOf (shares : List (Nat × ℚ)) (position : Nat) : ℚ :=
  (shares.map fun share => if share.1 = position then share.2 else 0).sum

theorem shareOf_add (shares : List (Nat × ℚ)) (id : Nat) (share : ℚ) (position : Nat) :
    shareOf (addSparseShare shares id share) position =
      shareOf shares position + if id = position then share else 0 := by
  induction shares with
  | nil => simp [addSparseShare, shareOf]
  | cons entry shares ih =>
    by_cases hid : entry.1 = id
    · subst hid
      by_cases hposition : entry.1 = position
      · simp [addSparseShare, shareOf, hposition]
        ring
      · simp [addSparseShare, shareOf, hposition]
    · have hcons : addSparseShare (entry :: shares) id share =
          entry :: addSparseShare shares id share := by rw [addSparseShare, if_neg hid]
      calc shareOf (addSparseShare (entry :: shares) id share) position
          = (if entry.1 = position then entry.2 else 0) +
              shareOf (addSparseShare shares id share) position := by
            rw [hcons, shareOf, List.map_cons, List.sum_cons, shareOf]
        _ = shareOf (entry :: shares) position + if id = position then share else 0 := by
            rw [ih, ← add_assoc, shareOf, shareOf, List.map_cons, List.sum_cons]

theorem sum_addSparseShare (shares : List (Nat × ℚ)) (id : Nat) (share : ℚ) :
    ((addSparseShare shares id share).map Prod.snd).sum = (shares.map Prod.snd).sum + share := by
  induction shares with
  | nil => simp [addSparseShare]
  | cons entry shares ih =>
    by_cases hid : entry.1 = id
    · simp only [addSparseShare, if_pos hid, List.map_cons, List.sum_cons]
      ring
    · simp only [addSparseShare, if_neg hid, List.map_cons, List.sum_cons, ih]
      ring

theorem mem_addSparseShare {shares : List (Nat × ℚ)} {id position : Nat} {share : ℚ} :
    position ∈ (addSparseShare shares id share).map Prod.fst ↔
      position = id ∨ position ∈ shares.map Prod.fst := by
  induction shares with
  | nil => simp [addSparseShare]
  | cons entry shares ih =>
    by_cases hid : entry.1 = id
    · rw [addSparseShare, if_pos hid, List.map_cons, List.map_cons, List.mem_cons]
      show position = entry.1 ∨ _ ↔ _
      rw [hid]
      tauto
    · simp only [addSparseShare, if_neg hid, List.map_cons, List.mem_cons, ih]
      tauto

theorem nodup_addSparseShare {shares : List (Nat × ℚ)} (h : (shares.map Prod.fst).Nodup) (id : Nat)
    (share : ℚ) : ((addSparseShare shares id share).map Prod.fst).Nodup := by
  induction shares with
  | nil => simp [addSparseShare]
  | cons entry shares ih =>
    obtain ⟨hentry, hshares⟩ := List.nodup_cons.mp h
    by_cases hid : entry.1 = id
    · rw [addSparseShare, if_pos hid]
      exact h
    · rw [addSparseShare, if_neg hid, List.map_cons, List.nodup_cons]
      refine ⟨fun hmem => ?_, ih hshares⟩
      rcases mem_addSparseShare.mp hmem with heq | hmem
      · exact hid heq
      · exact hentry hmem

theorem getD_addWeight (state : Attributed) (weight : ℚ) {c : Nat}
    (hc : c < state.weights.length) (j : Nat) :
    (state.addWeight weight c).weights.getD j 0 =
      state.weights.getD j 0 + if j = c then weight else 0 := by
  by_cases hj : j = c
  · subst hj
    rw [if_pos rfl, Attributed.addWeight,
      List.getD_eq_getElem _ _ (by rw [List.length_set]; exact hc), List.getElem_set_self]
  · rw [if_neg hj, add_zero, Attributed.addWeight, List.getD_eq_getElem?_getD,
      List.getElem?_set_ne (Ne.symm hj), ← List.getD_eq_getElem?_getD]

theorem foldl_addWeight (weight : ℚ) {l : List Nat} (hl : l.Nodup) (state : Attributed)
    (hlt : ∀ c ∈ l, c < state.weights.length) :
    let after := l.foldl (fun state child => state.addWeight weight child) state
    after.weights.length = state.weights.length ∧ after.shares = state.shares ∧
      ∀ j, after.weights.getD j 0 = state.weights.getD j 0 + if j ∈ l then weight else 0 := by
  induction l generalizing state with
  | nil => exact ⟨rfl, rfl, fun j => by simp⟩
  | cons c l ih =>
    obtain ⟨hc, hl⟩ := List.nodup_cons.mp hl
    have hlength : (state.addWeight weight c).weights.length = state.weights.length :=
      List.length_set
    obtain ⟨hlength', hshares, hweights⟩ := ih hl (state.addWeight weight c) fun c' hc' => by
      rw [hlength]
      exact hlt c' (List.mem_cons_of_mem _ hc')
    refine ⟨hlength'.trans hlength, hshares, fun j => ?_⟩
    rw [List.foldl_cons, hweights j, getD_addWeight state weight (hlt c List.mem_cons_self)]
    by_cases hj : j = c
    · subst hj
      rw [if_pos rfl, if_neg hc, if_pos List.mem_cons_self, add_zero]
    · rw [if_neg hj, add_zero]
      simp only [List.mem_cons, hj, false_or]

/-- What one node hands down, and what it keeps. -/
structure HandsDown (slotPositionIds : List Nat) (slotTimes times : List ℚ) (node : FlatCostNode)
    (weight : ℚ) (before after : Attributed) : Prop where
  length : after.weights.length = before.weights.length
  weights : ∀ j, after.weights.getD j 0 =
    before.weights.getD j 0 + if j ∈ heirs times node then handedWeight times weight node else 0
  nodup : (before.shares.map Prod.fst).Nodup → (after.shares.map Prod.fst).Nodup
  sum : (after.shares.map Prod.snd).sum =
    (before.shares.map Prod.snd).sum + keptShare slotTimes weight node
  share : ∀ position, shareOf after.shares position =
    shareOf before.shares position + keptFor slotPositionIds slotTimes weight position node

variable {slotPositionIds : List Nat} {slotTimes times : List ℚ} {nodes : List FlatCostNode}

theorem handedWeight_zero (node : FlatCostNode) : handedWeight times 0 node = 0 := by
  cases node with
  | leaf slot => rfl
  | sum children => rfl
  | max overlap children => simp [handedWeight]
  | parallel overlap children => simp [handedWeight]
  | scale n children => simp [handedWeight]

variable {node : FlatCostNode}

theorem HandsDown.of_inner {weight : ℚ} {before after : Attributed}
    (hnode : ∀ slot, node ≠ .leaf slot)
    (h : after.weights.length = before.weights.length ∧ after.shares = before.shares ∧
      ∀ j, after.weights.getD j 0 = before.weights.getD j 0 +
        if j ∈ heirs times node then handedWeight times weight node else 0) :
    HandsDown slotPositionIds slotTimes times node weight before after := by
  obtain ⟨hlength, hshares, hweights⟩ := h
  have hkept : keptShare slotTimes weight node = 0 ∧
      ∀ position, keptFor slotPositionIds slotTimes weight position node = 0 := by
    cases node with
    | leaf slot => exact absurd rfl (hnode slot)
    | sum children => exact ⟨rfl, fun _ => rfl⟩
    | max overlap children => exact ⟨rfl, fun _ => rfl⟩
    | parallel overlap children => exact ⟨rfl, fun _ => rfl⟩
    | scale n children => exact ⟨rfl, fun _ => rfl⟩
  exact ⟨hlength, hweights, fun h => by rwa [hshares], by rw [hshares, hkept.1, add_zero],
    fun position => by rw [hshares, hkept.2, add_zero]⟩

theorem HandsDown.of_leaf {slot : Nat} {weight : ℚ} (before : Attributed)
    (hnonneg : 0 ≤ slotTimes.getD slot 0 * weight) :
    HandsDown slotPositionIds slotTimes times (.leaf slot) weight before
      (if 0 < slotTimes.getD slot 0 * weight then
        { before with
          shares := addSparseShare before.shares (slotPositionIds.getD slot 0)
            (slotTimes.getD slot 0 * weight) }
      else before) := by
  have hweights : ∀ j, before.weights.getD j 0 = before.weights.getD j 0 +
      if j ∈ heirs times (.leaf slot) then handedWeight times weight (.leaf slot) else 0 :=
    fun j => by rw [heirs, if_neg List.not_mem_nil, add_zero]
  by_cases hshare : 0 < slotTimes.getD slot 0 * weight
  · rw [if_pos hshare]
    exact ⟨rfl, hweights, fun h => nodup_addSparseShare h _ _, sum_addSparseShare _ _ _,
      fun position => shareOf_add _ _ _ position⟩
  · have hzero : slotTimes.getD slot 0 * weight = 0 := le_antisymm (not_lt.mp hshare) hnonneg
    rw [if_neg hshare]
    refine ⟨rfl, hweights, fun h => h, ?_, fun position => ?_⟩
    · rw [keptShare, hzero, add_zero]
    · rw [keptFor, hzero, ite_self, add_zero]

theorem heirs_subset {c : Nat} (hc : c ∈ heirs times node) :
    c ∈ node.visited := by
  cases node with
  | leaf slot => exact hc
  | sum children => exact hc
  | max overlap children => exact (List.mem_filter.mp hc).1
  | parallel overlap children => exact (List.mem_filter.mp hc).1
  | scale n children => exact hc

theorem attributeNode_spec {i : Nat} (state : Attributed)
    (hlt : ∀ c ∈ node.visited, c < state.weights.length) (hnonneg : ∀ t ∈ slotTimes, 0 ≤ t)
    (hweight : 0 ≤ state.weights.getD i 0) :
    HandsDown slotPositionIds slotTimes times node (state.weights.getD i 0) state
      (attributeNode slotPositionIds slotTimes times state (node, i)) := by
  set weight := state.weights.getD i 0 with hweightDef
  have hcritical : ∀ (overlap : ℚ) (children : ChildRange),
      (∀ c ∈ children.places, c < state.weights.length) →
      let after := if critical times children = [] then state
        else (critical times children).foldl (fun state child => state.addWeight
          (weight / overlapDivisor overlap / (critical times children).length) child) state
      after.weights.length = state.weights.length ∧ after.shares = state.shares ∧
        ∀ j, after.weights.getD j 0 = state.weights.getD j 0 +
          if j ∈ critical times children then
            weight / overlapDivisor overlap / (critical times children).length else 0 := by
    intro overlap children hchildren
    by_cases hnil : critical times children = []
    · rw [if_pos hnil]
      exact ⟨rfl, rfl, fun j => by rw [hnil, if_neg List.not_mem_nil, add_zero]⟩
    · rw [if_neg hnil]
      exact foldl_addWeight _ (List.Nodup.filter _ List.nodup_range') state fun c hc =>
        hchildren c (List.mem_filter.mp hc).1
  by_cases hzero : weight = 0
  · -- a weight of zero hands down zeros
    have hsame : attributeNode slotPositionIds slotTimes times state (node, i) = state := by
      rw [attributeNode, if_pos hzero]
    rw [hsame, hzero]
    cases hnode : node with
    | leaf slot =>
      have h : HandsDown slotPositionIds slotTimes times (.leaf slot) 0 state _ :=
        HandsDown.of_leaf state (le_of_eq (mul_zero (slotTimes.getD slot 0)).symm)
      rwa [mul_zero, if_neg (lt_irrefl _)] at h
    | _ =>
      refine HandsDown.of_inner (fun slot h => by cases h) ⟨rfl, rfl, fun j => ?_⟩
      rw [handedWeight_zero, ite_self, add_zero]
  · rw [attributeNode, if_neg hzero]
    cases node with
    | leaf slot =>
      exact HandsDown.of_leaf state (mul_nonneg (getD_nonneg hnonneg slot) hweight)
    | sum children =>
      exact HandsDown.of_inner (fun slot h => by cases h)
        (foldl_addWeight weight List.nodup_range' state hlt)
    | max overlap children =>
      exact HandsDown.of_inner (fun slot h => by cases h) (hcritical overlap children hlt)
    | parallel overlap children =>
      exact HandsDown.of_inner (fun slot h => by cases h) (hcritical overlap children hlt)
    | scale n children =>
      refine HandsDown.of_inner (fun slot h => by cases h) ?_
      exact foldl_addWeight (weight * n) (List.nodup_singleton children.start) state hlt

/-! ## The way down -/

/-- Children of a fan-out within the tie tolerance of each other are equally slow. -/
def TiesEqual (nodes : List FlatCostNode) (times : List ℚ) : Prop :=
  ∀ node ∈ nodes, ∀ overlap children,
    node = .max overlap children ∨ node = .parallel overlap children →
    ∀ c ∈ children.places, ∀ c' ∈ children.places,
      |times.getD c 0 - times.getD c' 0| ≤ tieRelEpsilon * Max.max |maxChild times children| 1 →
      times.getD c 0 = times.getD c' 0

theorem foldl_max_mem (values : List ℚ) (acc : ℚ) :
    values.foldl Max.max acc = acc ∨ values.foldl Max.max acc ∈ values := by
  induction values generalizing acc with
  | nil => exact .inl rfl
  | cons value values ih =>
    rcases ih (Max.max acc value) with h | h
    · rcases max_choice acc value with hmax | hmax
      · exact .inl (h.trans hmax)
      · exact .inr (List.mem_cons.mpr (.inl (h.trans hmax)))
    · exact .inr (List.mem_cons_of_mem _ h)

theorem le_foldl_max {values : List ℚ} {value : ℚ} (h : value ∈ values) (acc : ℚ) :
    value ≤ values.foldl Max.max acc := by
  induction values generalizing acc with
  | nil => cases h
  | cons first values ih =>
    rcases List.mem_cons.mp h with rfl | h
    · exact (le_max_right acc value).trans (foldl_max_nonneg values _)
    · exact ih h _

theorem exists_slowest_child {children : ChildRange} (hne : children.start < children.stop)
    (hnonneg : ∀ i, 0 ≤ times.getD i 0) :
    ∃ c ∈ children.places, times.getD c 0 = maxChild times children := by
  rcases foldl_max_mem (children.places.map fun child => times.getD child 0) 0 with h | h
  · have hfirst : children.start ∈ children.places := ChildRange.mem_places.mpr ⟨le_rfl, hne⟩
    refine ⟨children.start, hfirst, le_antisymm ?_ ?_⟩
    · exact le_foldl_max (List.mem_map_of_mem hfirst) 0
    · rw [maxChild, h]
      exact hnonneg children.start
  · obtain ⟨c, hc, heq⟩ := List.mem_map.mp h
    exact ⟨c, hc, heq⟩

theorem mem_critical {children : ChildRange} (hne : children.start < children.stop)
    (hnonneg : ∀ i, 0 ≤ times.getD i 0)
    (hties : ∀ c ∈ children.places, ∀ c' ∈ children.places,
      |times.getD c 0 - times.getD c' 0| ≤ tieRelEpsilon * Max.max |maxChild times children| 1 →
      times.getD c 0 = times.getD c' 0) {c : Nat} :
    c ∈ critical times children ↔
      c ∈ children.places ∧ times.getD c 0 = maxChild times children := by
  obtain ⟨slowest, hslowest, heq⟩ := exists_slowest_child hne hnonneg
  rw [critical, List.mem_filter, decide_eq_true_eq]
  constructor
  · rintro ⟨hc, hclose⟩
    refine ⟨hc, ?_⟩
    rw [← heq] at hclose ⊢
    refine hties c hc slowest hslowest ?_
    rwa [← heq]
  · rintro ⟨hc, hsame⟩
    refine ⟨hc, ?_⟩
    rw [hsame, sub_self, abs_zero]
    exact mul_nonneg (by norm_num [tieRelEpsilon]) (zero_le_one.trans (le_max_right _ _))

theorem handed_time (ht : Timed nodes slotTimes times) (hm : FlatTree nodes)
    (hties : TiesEqual nodes times) {i : Nat} (hi : nodes[i]? = some node)
    (weight : ℚ) :
    keptShare slotTimes weight node +
        handedWeight times weight node * ((heirs times node).map fun c => times.getD c 0).sum =
      weight * times.getD i 0 := by
  have hmem := List.mem_of_getElem? hi
  have hfan : ∀ (overlap : ℚ) (children : ChildRange),
      node = .max overlap children ∨ node = .parallel overlap children →
      children.start < children.stop →
      weight / overlapDivisor overlap / (critical times children).length *
          ((critical times children).map fun c => times.getD c 0).sum =
        weight * (maxChild times children / overlapDivisor overlap) := by
    intro overlap children hnode hne
    have hcritical := fun c => mem_critical hne ht.nonneg (hties node hmem overlap children hnode)
      (c := c)
    obtain ⟨slowest, hslowest⟩ := exists_slowest_child hne ht.nonneg
    have hlength : ((critical times children).length : ℚ) ≠ 0 :=
      Nat.cast_ne_zero.mpr (List.length_pos_of_mem ((hcritical slowest).mpr hslowest)).ne'
    have hsum : ((critical times children).map fun c => times.getD c 0).sum =
        (critical times children).length * maxChild times children := by
      rw [List.map_congr_left fun c hc => ((hcritical c).mp hc).2, List.map_const',
        List.sum_replicate, nsmul_eq_mul]
    have hdivisor := (overlapDivisor_pos overlap).ne'
    rw [hsum]
    field_simp
  rw [ht.solves i node hi]
  cases node with
  | leaf slot => simp only [keptShare, heirs, timeOf, List.map_nil, List.sum_nil]; ring
  | sum children => exact zero_add _
  | max overlap children =>
    exact (zero_add _).trans (hfan overlap children (.inl rfl) (hm.nonempty _ hmem _ rfl))
  | parallel overlap children =>
    exact (zero_add _).trans (hfan overlap children (.inr rfl) (hm.nonempty _ hmem _ rfl))
  | scale n children =>
    simp only [keptShare, handedWeight, heirs, timeOf, List.map_cons, List.map_nil, List.sum_cons,
      List.sum_nil]
    ring

/-- The root, and the heirs of what is on the path. -/
def OnPath (nodes : List FlatCostNode) (times : List ℚ) : Nat → Prop :=
  Relation.ReflTransGen (fun i c => ∃ node, nodes[i]? = some node ∧ c ∈ heirs times node) 0

/-- What holds before place `k` hands down. -/
structure Handed (nodes : List FlatCostNode) (slotPositionIds : List Nat)
    (slotTimes times : List ℚ) (k : Nat) (state : Attributed) : Prop where
  length : state.weights.length = nodes.length
  nonneg : ∀ j, 0 ≤ state.weights.getD j 0
  path : ∀ j, state.weights.getD j 0 ≠ 0 → OnPath nodes times j
  nodup : (state.shares.map Prod.fst).Nodup
  share : ∀ position, shareOf state.shares position = ∑ j ∈ Finset.range k,
    keptFor slotPositionIds slotTimes (state.weights.getD j 0) position (nodes.getD j (.leaf 0))
  sum : (state.shares.map Prod.snd).sum +
    ∑ j ∈ Finset.Ico k nodes.length, state.weights.getD j 0 * times.getD j 0 = 1

theorem handedWeight_nonneg {weight : ℚ} (hweight : 0 ≤ weight) (node : FlatCostNode) :
    0 ≤ handedWeight times weight node := by
  cases node with
  | leaf slot => exact le_rfl
  | sum children => exact hweight
  | max overlap children =>
    exact div_nonneg (div_nonneg hweight (overlapDivisor_pos overlap).le) (Nat.cast_nonneg _)
  | parallel overlap children =>
    exact div_nonneg (div_nonneg hweight (overlapDivisor_pos overlap).le) (Nat.cast_nonneg _)
  | scale n children => exact mul_nonneg hweight (Nat.cast_nonneg n)

theorem nodup_heirs (node : FlatCostNode) : (heirs times node).Nodup := by
  cases node with
  | leaf slot => exact List.nodup_nil
  | sum children => exact List.nodup_range'
  | max overlap children => exact List.Nodup.filter _ List.nodup_range'
  | parallel overlap children => exact List.Nodup.filter _ List.nodup_range'
  | scale n children => exact List.nodup_singleton _

theorem sum_handed {l : List Nat} (hl : l.Nodup) {ahead : Finset Nat} (hsub : ∀ c ∈ l, c ∈ ahead)
    (weights times : Nat → ℚ) (weight : ℚ) :
    ∑ j ∈ ahead, (weights j + if j ∈ l then weight else 0) * times j =
      ∑ j ∈ ahead, weights j * times j + weight * (l.map times).sum := by
  have hsubset : l.toFinset ⊆ ahead := fun c hc => hsub c (List.mem_toFinset.mp hc)
  calc ∑ j ∈ ahead, (weights j + if j ∈ l then weight else 0) * times j
      = ∑ j ∈ ahead, weights j * times j +
          ∑ j ∈ ahead, (if j ∈ l then weight else 0) * times j := by
        rw [← Finset.sum_add_distrib]
        exact Finset.sum_congr rfl fun j _ => add_mul _ _ _
    _ = ∑ j ∈ ahead, weights j * times j +
          ∑ j ∈ l.toFinset, (if j ∈ l then weight else 0) * times j := by
        rw [Finset.sum_subset hsubset fun j _ hj => ?_]
        rw [if_neg fun hc => hj (List.mem_toFinset.mpr hc), zero_mul]
    _ = ∑ j ∈ ahead, weights j * times j + weight * (l.map times).sum := by
        rw [← List.sum_toFinset _ hl, Finset.mul_sum]
        congr 1
        refine Finset.sum_congr rfl fun j hj => ?_
        rw [if_pos (List.mem_toFinset.mp hj)]

section

variable (ht : Timed nodes slotTimes times) (hm : FlatTree nodes) (hties : TiesEqual nodes times)
  (hnonneg : ∀ t ∈ slotTimes, 0 ≤ t)

include ht hm hties hnonneg

theorem Handed.step {k : Nat}
    (hk : nodes[k]? = some node) {state : Attributed}
    (h : Handed nodes slotPositionIds slotTimes times k state) :
    Handed nodes slotPositionIds slotTimes times (k + 1)
      (attributeNode slotPositionIds slotTimes times state (node, k)) := by
  have hlt := (List.getElem?_eq_some_iff.mp hk).1
  have hvisited : ∀ c ∈ node.visited, k < c ∧ c < nodes.length := fun c hc => by
    have hplace : c ∈ childPlaces nodes k := by rwa [childPlaces_eq hk]
    exact ⟨hm.tree.behind k c hplace, hm.tree.within k c hplace⟩
  have hdown : HandsDown slotPositionIds slotTimes times node (state.weights.getD k 0) state
      (attributeNode slotPositionIds slotTimes times state (node, k)) :=
    attributeNode_spec state (fun c hc => h.length ▸ (hvisited c hc).2) hnonneg (h.nonneg k)
  set after := attributeNode slotPositionIds slotTimes times state (node, k)
  set weight := state.weights.getD k 0 with hweight
  -- heirs lie behind place `k`
  have hkept : ∀ j ≤ k, after.weights.getD j 0 = state.weights.getD j 0 := fun j hj => by
    rw [hdown.weights j, if_neg fun hc => ?_, add_zero]
    have := (hvisited j (heirs_subset hc)).1
    omega
  have hnode : nodes.getD k (.leaf 0) = node := by
    rw [List.getD_eq_getElem?_getD, hk]
    rfl
  refine ⟨hdown.length.trans h.length, fun j => ?_, fun j hj => ?_, hdown.nodup h.nodup,
    fun position => ?_, ?_⟩
  · rw [hdown.weights j]
    refine add_nonneg (h.nonneg j) ?_
    split
    · exact handedWeight_nonneg (h.nonneg k) node
    · exact le_rfl
  · by_cases hold : state.weights.getD j 0 = 0
    · rw [hdown.weights j, hold, zero_add] at hj
      have hheir : j ∈ heirs times node := by
        by_contra hnot
        exact hj (if_neg hnot)
      rw [if_pos hheir] at hj
      have hzero : weight ≠ 0 := fun hzero => hj (by rw [hzero, handedWeight_zero])
      exact (h.path k hzero).tail ⟨node, hk, hheir⟩
    · exact h.path j hold
  · rw [hdown.share, h.share, Finset.sum_range_succ, hnode, hkept k le_rfl]
    congr 1
    refine Finset.sum_congr rfl fun j hj => ?_
    rw [hkept j (Finset.mem_range.mp hj).le]
  · have hahead : ∑ j ∈ Finset.Ico (k + 1) nodes.length, after.weights.getD j 0 * times.getD j 0 =
        ∑ j ∈ Finset.Ico (k + 1) nodes.length, state.weights.getD j 0 * times.getD j 0 +
          handedWeight times weight node *
            ((heirs times node).map fun c => times.getD c 0).sum := by
      simp only [hdown.weights]
      exact sum_handed (nodup_heirs node) (fun c hc => Finset.mem_Ico.mpr
        (hvisited c (heirs_subset hc))) _ _ _
    rw [hdown.sum, hahead]
    have hsum := h.sum
    rw [Finset.sum_eq_sum_Ico_succ_bot hlt, ← handed_time ht hm hties hk] at hsum
    linarith

theorem Handed.foldl {rest : List FlatCostNode}
    {k : Nat} (hrest : nodes.drop k = rest) (hk : k ≤ nodes.length) {state : Attributed}
    (h : Handed nodes slotPositionIds slotTimes times k state) :
    Handed nodes slotPositionIds slotTimes times nodes.length
      ((rest.zipIdx k).foldl (attributeNode slotPositionIds slotTimes times) state) := by
  induction rest generalizing k state with
  | nil =>
    have hlength := List.drop_eq_nil_iff.mp hrest
    obtain rfl : k = nodes.length := by omega
    exact h
  | cons node rest ih =>
    have hlt : k < nodes.length := by
      by_contra hge
      rw [List.drop_eq_nil_of_le (by omega)] at hrest
      cases hrest
    rw [List.drop_eq_getElem_cons hlt] at hrest
    obtain ⟨hnode, hrest⟩ := List.cons.inj hrest
    have hplace : nodes[k]? = some node := hnode ▸ List.getElem?_eq_getElem hlt
    exact ih hrest hlt (h.step ht hm hties hnonneg hplace)

theorem handed_attributeRoot (hroot : timeEpsilonMs < times.getD 0 0) :
    Handed nodes slotPositionIds slotTimes times nodes.length
      (attributeRoot nodes slotPositionIds slotTimes times) := by
  have hpos : 0 < times.getD 0 0 := lt_trans (by norm_num [timeEpsilonMs]) hroot
  have hlength : 0 < nodes.length := by
    rw [← ht.length]
    by_contra hle
    rw [List.getD_eq_default _ _ (by omega)] at hpos
    exact lt_irrefl _ hpos
  have hzeros : ∀ j, (List.replicate nodes.length (0 : ℚ)).getD j 0 = 0 := fun j => by
    rw [List.getD_eq_getElem?_getD, List.getElem?_replicate]
    split
    · rfl
    · rfl
  set weights := (List.replicate nodes.length (0 : ℚ)).set 0 (1 / times.getD 0 0) with hweights
  have hfirst : weights.getD 0 0 = 1 / times.getD 0 0 := by
    rw [hweights, List.getD_eq_getElem _ _ (by simpa using hlength), List.getElem_set_self]
  have hothers : ∀ j, j ≠ 0 → weights.getD j 0 = 0 := fun j hj => by
    rw [hweights, List.getD_eq_getElem?_getD, List.getElem?_set_ne (Ne.symm hj),
      ← List.getD_eq_getElem?_getD, hzeros]
  have hstart : Handed nodes slotPositionIds slotTimes times 0 ⟨weights, []⟩ := by
    refine ⟨by rw [hweights, List.length_set, List.length_replicate], fun j => ?_, fun j hj => ?_,
      List.nodup_nil, fun position => rfl, ?_⟩
    · by_cases hj : j = 0
      · rw [hj, hfirst]
        exact (one_div_pos.mpr hpos).le
      · exact (hothers j hj).ge
    · obtain rfl : j = 0 := by
        by_contra hne
        exact hj (hothers j hne)
      exact Relation.ReflTransGen.refl
    · have hbehind : ∑ j ∈ Finset.Ico 1 nodes.length, weights.getD j 0 * times.getD j 0 = 0 := by
        refine Finset.sum_eq_zero fun j hj => ?_
        have := (Finset.mem_Ico.mp hj).1
        rw [hothers j (by omega), zero_mul]
      show 0 + ∑ j ∈ Finset.Ico 0 nodes.length, weights.getD j 0 * times.getD j 0 = 1
      rw [Finset.sum_eq_sum_Ico_succ_bot hlength, hbehind, hfirst, one_div_mul_cancel hpos.ne']
      norm_num
  rw [attributeRoot, if_pos hroot]
  exact hstart.foldl ht hm hties hnonneg rfl (Nat.zero_le _)

end

/-- Below a child of a fan-out that is not one of its slowest. -/
def Eclipsed (nodes : List FlatCostNode) (times : List ℚ) (j : Nat) : Prop :=
  ∃ (i : Nat) (node : FlatCostNode) (overlap : ℚ) (children : ChildRange) (c : Nat),
    nodes[i]? = some node ∧ (node = .max overlap children ∨ node = .parallel overlap children) ∧
    c ∈ children.places ∧ times.getD c 0 < maxChild times children ∧
        ForwardTree.Below (childPlaces nodes) c j

theorem not_onPath_below (hm : FlatTree nodes) {i c j : Nat}
    (hi : nodes[i]? = some node) (hc : c ∈ node.visited) (hheir : c ∉ heirs times node)
    (hbelow : ForwardTree.Below (childPlaces nodes) c j) : ¬OnPath nodes times j := by
  have hchild : c ∈ childPlaces nodes i := by rwa [childPlaces_eq hi]
  intro hpath
  induction hpath with
  | refl =>
    have := hm.tree.behind i c hchild
    have := ForwardTree.Below.le hm.tree.toForward hbelow
    omega
  | tail hpath hstep ih =>
    rename_i p j
    obtain ⟨parent, hp, hj⟩ := hstep
    have hplace : j ∈ childPlaces nodes p := by
      rw [childPlaces_eq hp]
      exact heirs_subset hj
    rcases Relation.ReflTransGen.cases_tail hbelow with heq | ⟨q, hq, hjq⟩
    · subst heq
      obtain rfl := hm.tree.unique _ _ _ hplace hchild
      rw [hi] at hp
      obtain rfl := Option.some.inj hp
      exact hheir hj
    · obtain rfl := hm.tree.unique _ _ _ hplace hjq
      exact ih hq

theorem Eclipsed.weight_eq_zero (ht : Timed nodes slotTimes times) (hm : FlatTree nodes)
    (hties : TiesEqual nodes times) {k : Nat} {state : Attributed}
    (h : Handed nodes slotPositionIds slotTimes times k state) {j : Nat}
    (hj : Eclipsed nodes times j) : state.weights.getD j 0 = 0 := by
  obtain ⟨i, node, overlap, children, c, hi, hnode, hc, hslower, hbelow⟩ := hj
  by_contra hweight
  have hmem := List.mem_of_getElem? hi
  have hne : children.start < children.stop := by
    have := ChildRange.mem_places.mp hc
    omega
  have hnot : c ∉ critical times children := fun hcritical =>
    hslower.ne ((mem_critical hne ht.nonneg (hties node hmem overlap children hnode)).mp
        hcritical).2
  refine not_onPath_below hm hi ?_ ?_ hbelow (h.path j hweight)
  · rcases hnode with rfl | rfl
    · exact hc
    · exact hc
  · rcases hnode with rfl | rfl
    · exact hnot
    · exact hnot

/-! ## Plans -/

theorem exists_leaf (hm : FlatTree nodes) (hlength : 0 < nodes.length) :
    ∃ (j slot : Nat), nodes[j]? = some (.leaf slot) := by
  have hlast : nodes[nodes.length - 1]? = some nodes[nodes.length - 1] :=
    List.getElem?_eq_getElem (by omega)
  have hmem := List.mem_of_getElem? hlast
  have hnone : ∀ range, nodes[nodes.length - 1].children ≠ some range := fun range hrange => by
    have hbehind := hm.behind _ _ range hlast hrange
    have hwithin := hm.within _ hmem range hrange
    have hnonempty := hm.nonempty _ hmem range hrange
    omega
  cases hcase : nodes[nodes.length - 1] with
  | leaf slot => exact ⟨_, slot, hcase ▸ hlast⟩
  | sum children => exact absurd (hcase ▸ rfl) (hnone children)
  | max overlap children => exact absurd (hcase ▸ rfl) (hnone children)
  | parallel overlap children => exact absurd (hcase ▸ rfl) (hnone children)
  | scale n children => exact absurd (hcase ▸ rfl) (hnone children)

theorem validateTree_spec {root : CostNode} (hroot : root.Nonempty)
    {labels : List (Option String)} (hok : root.flattenLabeled = .ok (nodes, labels))
    (h : Flattened root nodes labels) {buf : List LeafMetrics} (hfills : Fills buf root) :
    validateTree nodes buf.length = .ok () := by
  have hm := flatTree_of_flattened hroot hok h
  have hnode : ∀ entry ∈ nodes.zipIdx, checkNode nodes.length buf.length entry.2 entry.1 =
      .ok () := by
    rintro ⟨node, i⟩ hentry
    have hi : nodes[i]? = some node := List.mk_mem_zipIdx_iff_getElem?.mp hentry
    have hmem := List.mem_of_getElem? hi
    have hranged := wellRanged_of_flattened hroot hok node hmem
    have hrange : ∀ range, node.children = some range →
        ¬(range.stop ≤ range.start ∨ range.start ≤ i ∨ nodes.length < range.stop) :=
      fun range hrange => by
        have hnonempty := hm.nonempty node hmem range hrange
        have hbehind := hm.behind i node range hi hrange
        have hwithin := hm.within node hmem range hrange
        omega
    cases node with
    | leaf slot => exact if_pos (hfills.slots slot (h.slots i slot hi))
    | sum children => exact if_pos (hrange children rfl)
    | max overlap children => exact if_pos (hrange children rfl)
    | parallel overlap children => exact if_pos (hrange children rfl)
    | scale n children =>
      show (do
        ensure (children.stop = children.start + 1) _
        ensure (¬(children.stop ≤ children.start ∨ children.start ≤ i ∨
          nodes.length < children.stop)) _) = Except.ok ()
      have hsingle : children.stop = children.start + 1 := hranged
      rw [ensure, if_pos hsingle, ensure, if_pos (hrange children rfl)]
      rfl
  have hne : nodes ≠ [] := List.ne_nil_of_length_pos (Lowered.lt_length root h.tree)
  rw [validateTree, ensure, if_pos hne]
  exact forM_eq_ok_iff.mpr hnode

/-- The plans that rows lead to. -/
def Reached : SectionPlan → SectionPlan → Prop :=
  Relation.ReflTransGen fun plan plan' => ∃ slotTimes, plan' = (plan.positionShares slotTimes).2

/-- A plan's answer when nothing is kept. -/
def answer (nodes : List FlatCostNode) (slotPositionIds : List Nat) (slotTimes : List ℚ) :
    Except String (List (Nat × ℚ)) :=
  (nodeTimes nodes slotTimes).map fun times =>
    normalize (attributeRoot nodes slotPositionIds slotTimes times).shares

/-- What is kept is the answer to the row it is kept for. -/
structure Fresh (nodes : List FlatCostNode) (slotPositionIds : List Nat) (plan : SectionPlan) :
    Prop where
  tree : plan.nodes = nodes
  positions : plan.slotPositionIds = slotPositionIds
  kept : plan.lastSlots = [] ∨ answer nodes slotPositionIds plan.lastSlots = .ok plan.lastShares

theorem Fresh.positionShares {plan : SectionPlan} (h : Fresh nodes slotPositionIds plan)
    (hids : slotPositionIds ≠ []) (slotTimes : List ℚ) :
    Fresh nodes slotPositionIds (plan.positionShares slotTimes).2 ∧
      (slotTimes.length = slotPositionIds.length →
        (plan.positionShares slotTimes).1 = answer nodes slotPositionIds slotTimes) := by
  obtain ⟨hnodes, hpositions, hkept⟩ := h
  by_cases hlength : slotTimes.length = slotPositionIds.length
  · have hlength' : ¬slotTimes.length ≠ plan.slotPositionIds.length := by
      rw [hpositions]
      exact not_not_intro hlength
    by_cases hsame : slotTimes = plan.lastSlots
    · have hne : plan.lastSlots ≠ [] := by
        rw [← hsame]
        exact List.ne_nil_of_length_pos (hlength ▸ List.length_pos_iff.mpr hids)
      have hanswer := hkept.resolve_left hne
      rw [SectionPlan.positionShares, if_neg hlength', if_pos hsame]
      exact ⟨⟨hnodes, hpositions, hkept⟩, fun _ => by rw [hsame, hanswer]⟩
    · rw [SectionPlan.positionShares, if_neg hlength', if_neg hsame]
      subst hnodes hpositions
      cases htimes : nodeTimes plan.nodes slotTimes with
      | error message =>
        simp only [htimes]
        refine ⟨⟨rfl, rfl, hkept⟩, fun _ => ?_⟩
        rw [answer, htimes]
        rfl
      | ok times =>
        have hanswer : answer plan.nodes plan.slotPositionIds slotTimes = .ok (normalize
              (attributeRoot plan.nodes plan.slotPositionIds slotTimes times).shares) := by
          rw [answer, htimes]
          rfl
        simp only [htimes]
        exact ⟨⟨rfl, rfl, .inr hanswer⟩, fun _ => hanswer.symm⟩
  · have hlength' : slotTimes.length ≠ plan.slotPositionIds.length := by rwa [hpositions]
    rw [SectionPlan.positionShares, if_pos hlength']
    exact ⟨⟨hnodes, hpositions, hkept⟩, fun h => absurd h hlength⟩

theorem Reached.positionShares_eq {plan plan' : SectionPlan} (h : Reached plan plan')
    (hplan : Fresh nodes slotPositionIds plan) (hids : slotPositionIds ≠ [])
    (hlength : slotTimes.length = slotPositionIds.length) :
    (plan'.positionShares slotTimes).1 = answer nodes slotPositionIds slotTimes := by
  have hfresh : Fresh nodes slotPositionIds plan' := by
    induction h with
    | refl => exact hplan
    | tail _ hstep ih =>
      obtain ⟨row, rfl⟩ := hstep
      exact (ih.positionShares hids row).1
  exact (hfresh.positionShares hids slotTimes).2 hlength

/-! ## The shares of a row -/

/-- What the weights and shares of a row account for. -/
structure Accounted (nodes : List FlatCostNode) (slotPositionIds : List Nat)
    (slotTimes times : List ℚ) (state : Attributed) : Prop where
  sum : (state.shares.map Prod.snd).sum = 1
  nodup : (state.shares.map Prod.fst).Nodup
  share : ∀ position, shareOf state.shares position = ∑ j ∈ Finset.range nodes.length,
    keptFor slotPositionIds slotTimes (state.weights.getD j 0) position (nodes.getD j (.leaf 0))
  eclipsed : ∀ j, Eclipsed nodes times j → state.weights.getD j 0 = 0
  position : ∀ position, (∀ j slot, nodes[j]? = some (.leaf slot) →
    slotPositionIds.getD slot 0 = position → Eclipsed nodes times j) →
    shareOf state.shares position = 0

theorem Handed.accounted (ht : Timed nodes slotTimes times) (hm : FlatTree nodes)
    (hties : TiesEqual nodes times) {state : Attributed}
    (h : Handed nodes slotPositionIds slotTimes times nodes.length state) :
    Accounted nodes slotPositionIds slotTimes times state := by
  have heclipsed := fun j hj => Eclipsed.weight_eq_zero ht hm hties h (j := j) hj
  refine ⟨?_, h.nodup, h.share, heclipsed, fun position hposition => ?_⟩
  · have hsum := h.sum
    rwa [Finset.Ico_self, Finset.sum_empty, add_zero] at hsum
  · rw [h.share]
    refine Finset.sum_eq_zero fun j hj => ?_
    have hnode : nodes[j]? = some (nodes.getD j (.leaf 0)) := by
      rw [List.getD_eq_getElem _ _ (Finset.mem_range.mp hj), List.getElem?_eq_getElem]
    cases hcase : nodes.getD j (.leaf 0) with
    | leaf slot =>
      rw [hcase] at hnode
      rw [keptFor]
      split
      · next hid => rw [heclipsed j (hposition j slot hnode hid), mul_zero]
      · rfl
    | sum children => rfl
    | max overlap children => rfl
    | parallel overlap children => rfl
    | scale n children => rfl

/-- A plan answers as a fresh one, and where the overlaps are at least the least divisor the
analyzer's root time is the simulator's. When ties are equal and the root's time is above the
epsilon the shares sum to one and go to nothing below a child that is not critical. -/
theorem kernel_time_shares {root : CostNode} (hroot : root.Nonempty) :
    ∃ (nodes : List FlatCostNode) (labels : List (Option String)),
      root.flattenLabeled = .ok (nodes, labels) ∧
      ∀ buf : List LeafMetrics, Fills buf root →
      ∀ slotPositionIds : List Nat, slotPositionIds.length = buf.length →
      let slotTimes := buf.map fun metrics => metrics.m.timeMs
      ∃ (plan : SectionPlan) (times : List ℚ),
        SectionPlan.new nodes buf.length slotPositionIds = .ok plan ∧
        nodeTimes nodes slotTimes = .ok times ∧
        (root.OverlapsAtLeast timeEpsilonMs →
          (aggregate nodes buf).map (fun metrics => metrics.m.timeMs) = some (times.getD 0 0)) ∧
        (∀ plan', Reached plan plan' → (plan'.positionShares slotTimes).1 =
          .ok (normalize (attributeRoot nodes slotPositionIds slotTimes times).shares)) ∧
        (TiesEqual nodes times → timeEpsilonMs < times.getD 0 0 →
          Accounted nodes slotPositionIds slotTimes times
            (attributeRoot nodes slotPositionIds slotTimes times)) := by
  obtain ⟨nodes, labels, hflat, hflattened⟩ := flattenLabeled_spec root
  refine ⟨nodes, labels, hflat, fun buf hfills slotPositionIds hids => ?_⟩
  set slotTimes := buf.map fun metrics => metrics.m.timeMs with hslots
  have hm := flatTree_of_flattened hroot hflat hflattened
  have hnonneg : ∀ t ∈ slotTimes, 0 ≤ t := fun t ht => by
    obtain ⟨metrics, hmetrics, rfl⟩ := List.mem_map.mp ht
    exact hfills.times metrics hmetrics
  obtain ⟨times, htimes, ht⟩ := nodeTimes_spec hm hnonneg
  refine ⟨⟨nodes, slotPositionIds, [], [], 0, 0⟩, times, ?_, htimes, fun hleast => ?_,
    fun plan' hreached => ?_, fun hties hpos => ?_⟩
  · rw [SectionPlan.new, validateTree_spec hroot hflat hflattened hfills]
    rfl
  · have hpositive := hleast.positive (by norm_num [timeEpsilonMs])
    rw [hflattened.aggregate_eq hfills hpositive,
      time_meaning ht hslots.symm hnonneg root 0 none hflattened.tree hleast]
    rfl
  · have hlength : slotTimes.length = slotPositionIds.length := by
      rw [hids, hslots, List.length_map]
    obtain ⟨j, slot, hj⟩ := exists_leaf hm (Lowered.lt_length root hflattened.tree)
    have hslot := hfills.slots slot (hflattened.slots j slot hj)
    have hne : slotPositionIds ≠ [] := List.ne_nil_of_length_pos (by omega)
    rw [hreached.positionShares_eq ⟨rfl, rfl, .inl rfl⟩ hne hlength, answer, htimes]
    rfl
  · exact (handed_attributeRoot ht hm hties hnonneg hpos).accounted ht hm hties

/-- Two kernels of one position beside a faster one, twice. -/
def pooledTree : CostNode := .scale 2 (.max 1 [.leaf 0, .leaf 1, .leaf 2])

def pooledNodes : List FlatCostNode :=
  [.scale 2 ⟨1, 2⟩, .max 1 ⟨2, 5⟩, .leaf 0, .leaf 1, .leaf 2]

def pooledSlots : List LeafMetrics :=
  [⟨⟨2, 0, 0, 0⟩, 0, 0⟩, ⟨⟨1, 0, 0, 0⟩, 0, 0⟩, ⟨⟨2, 0, 0, 0⟩, 0, 0⟩]

theorem kernel_time_shares_pooled :
    (aggregate pooledNodes pooledSlots).map (fun metrics => metrics.m.timeMs) = some 4 ∧
      Accounted pooledNodes [0, 1, 0] [2, 1, 2] [4, 2, 2, 1, 2]
        (attributeRoot pooledNodes [0, 1, 0] [2, 1, 2] [4, 2, 2, 1, 2]) := by
  have hroot : pooledTree.Nonempty := ⟨List.cons_ne_nil _ _, trivial, trivial, trivial, trivial⟩
  have hleast : pooledTree.OverlapsAtLeast timeEpsilonMs :=
    ⟨by norm_num [timeEpsilonMs], trivial, trivial, trivial, trivial⟩
  obtain ⟨nodes, labels, hflat, hshares⟩ := kernel_time_shares hroot
  have hpooled : pooledTree.flattenLabeled = .ok (pooledNodes, List.replicate 5 none) := rfl
  obtain ⟨rfl, rfl⟩ := Prod.mk.inj (Except.ok.inj (hflat.symm.trans hpooled))
  obtain ⟨plan, times, -, htimes, htime, -, haccounted⟩ := hshares pooledSlots
    ⟨by decide, by decide +kernel⟩ [0, 1, 0] rfl
  have hpass : nodeTimes pooledNodes [2, 1, 2] = .ok [4, 2, 2, 1, 2] := by decide +kernel
  obtain rfl := Except.ok.inj (htimes.symm.trans hpass)
  refine ⟨htime hleast,
    haccounted (fun node hnode overlap children hfan => ?_) (by norm_num [timeEpsilonMs])⟩
  have hrange : children = ⟨2, 5⟩ := by
    rcases hfan with rfl | rfl
    · have h := hnode
      simp only [pooledNodes, List.mem_cons, FlatCostNode.max.injEq, reduceCtorEq, false_or,
        or_false, List.not_mem_nil] at h
      exact h.2
    · simp [pooledNodes] at hnode
  rw [hrange]
  decide +kernel

/-- A leaf without time has no share; below an overlap under the least divisor the analyzer's
root time is a tenth of the simulator's. -/
theorem unattributed_root : (attributeRoot [.leaf 0] [0] [0] [0]).shares = [] ∧
      nodeTimes [.leaf 0] [0] = .ok [0] ∧
      (CostNode.max (1 / 10 ^ 13) [.leaf 0]).flatten = .ok [.max (1 / 10 ^ 13) ⟨1, 2⟩, .leaf 0] ∧
      nodeTimes [.max (1 / 10 ^ 13) ⟨1, 2⟩, .leaf 0] [1] = .ok [10 ^ 12, 1] ∧
      (aggregate [.max (1 / 10 ^ 13) ⟨1, 2⟩, .leaf 0] [⟨⟨1, 0, 0, 0⟩, 0, 0⟩]).map
        (fun metrics => metrics.m.timeMs) = some (10 ^ 13) := by
  refine ⟨?_, ?_, ?_, ?_, ?_⟩
  · decide +kernel
  · decide +kernel
  · rfl
  · decide +kernel
  · decide +kernel

end KernelTimeShare

end ServingSim
