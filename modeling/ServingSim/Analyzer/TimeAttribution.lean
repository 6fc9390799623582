import ServingSim.Analyzer.KernelTimeShare
import Mathlib.Data.List.GetD

/-
  The times of a row's nodes (`breakdown::kernel_time_share`, the pass from the back).

  The analyzer's pass over the flat tree and the simulator's solve the same equations,
  apart from the least overlap the analyzer divides by.
-/

namespace ServingSim

open CostNode

/-! ## Trees with non-empty composites -/

namespace CostNode

mutual

/-- Every composite has a child. -/
def Nonempty : CostNode → Prop
  | leaf _ => True
  | sum children | max _ children | parallel _ children => children ≠ [] ∧ NonemptyAll children
  | scale _ child | labeled _ child => Nonempty child

def NonemptyAll : List CostNode → Prop
  | [] => True
  | child :: children => Nonempty child ∧ NonemptyAll children

end

mutual

/-- Every fan-out has an overlap of at least so much. -/
def OverlapsAtLeast (least : ℚ) : CostNode → Prop
  | leaf _ => True
  | sum children => OverlapsAtLeastAll least children
  | max overlap children | parallel overlap children =>
    least ≤ overlap ∧ OverlapsAtLeastAll least children
  | scale _ child | labeled _ child => OverlapsAtLeast least child

def OverlapsAtLeastAll (least : ℚ) : List CostNode → Prop
  | [] => True
  | child :: children => OverlapsAtLeast least child ∧ OverlapsAtLeastAll least children

end

mutual

theorem OverlapsAtLeast.positive {least : ℚ} (hleast : 0 < least) :
    ∀ node : CostNode, node.OverlapsAtLeast least → node.OverlapsPositive
  | .leaf _, _ => trivial
  | .sum children, h => OverlapsAtLeastAll.positive hleast children h
  | .max _ children, h => ⟨hleast.trans_le h.1, OverlapsAtLeastAll.positive hleast children h.2⟩
  | .parallel _ children, h =>
    ⟨hleast.trans_le h.1, OverlapsAtLeastAll.positive hleast children h.2⟩
  | .scale _ child, h => OverlapsAtLeast.positive hleast child h
  | .labeled _ child, h => OverlapsAtLeast.positive hleast child h

theorem OverlapsAtLeastAll.positive {least : ℚ} (hleast : 0 < least) :
    ∀ children : List CostNode, OverlapsAtLeastAll least children → OverlapsPositiveAll children
  | [], _ => trivial
  | child :: children, h =>
    ⟨OverlapsAtLeast.positive hleast child h.1, OverlapsAtLeastAll.positive hleast children h.2⟩

end

theorem NonemptyAll.mem {children : List CostNode} (h : NonemptyAll children) {child : CostNode}
    (hchild : child ∈ children) : child.Nonempty := by
  induction children with
  | nil => cases hchild
  | cons first children ih =>
    rcases List.mem_cons.mp hchild with rfl | hchild
    · exact h.1
    · exact ih h.2 hchild

end CostNode

/-- A composite's range is not empty, a repeat's is a single place. -/
def FlatCostNode.WellRanged : FlatCostNode → Prop
  | .leaf _ => True
  | .sum children | .max _ children | .parallel _ children => children.start < children.stop
  | .scale _ children => children.stop = children.start + 1

theorem FlatCostNode.WellRanged.start_lt_stop {node : FlatCostNode} (h : node.WellRanged)
    {range : ChildRange} (hrange : node.children = some range) : range.start < range.stop := by
  cases node with
  | leaf slot => cases hrange
  | sum children => exact Option.some.inj hrange ▸ h
  | max overlap children => exact Option.some.inj hrange ▸ h
  | parallel overlap children => exact Option.some.inj hrange ▸ h
  | scale n children =>
    obtain rfl := Option.some.inj hrange
    exact Nat.lt_of_lt_of_eq (Nat.lt_succ_self _) (Eq.symm h)

namespace Lowering

/-- What is filled has children, and so will what waits. -/
structure Filled (lowering : Lowering) : Prop where
  queued : ∀ e ∈ lowering.queue, e.1.Nonempty
  filled : ∀ node, some node ∈ lowering.out → FlatCostNode.WellRanged node

variable {lowering : Lowering}

theorem Filled.fill (h : lowering.Filled) {idx : Nat} {flat : FlatCostNode}
    (hflat : flat.WellRanged) : (lowering.fill idx flat).Filled := by
  refine ⟨h.queued, fun node hnode => ?_⟩
  rcases List.mem_or_eq_of_mem_set hnode with hnode | heq
  · exact h.filled node hnode
  · exact Option.some.inj heq ▸ hflat

theorem Filled.reserve (h : lowering.Filled) {children : List CostNode}
    (hchildren : ∀ child ∈ children, child.Nonempty) : (lowering.reserve children).1.Filled := by
  refine ⟨fun e he => ?_, fun node hnode => ?_⟩
  · rcases List.mem_append.mp he with he | he
    · exact h.queued e he
    · exact hchildren e.1 (List.fst_mem_of_mem_zipIdx he)
  · rcases List.mem_append.mp hnode with hnode | hnode
    · exact h.filled node hnode
    · obtain ⟨child, -, heq⟩ := List.mem_map.mp hnode
      cases heq

theorem Filled.lower (h : lowering.Filled) {idx : Nat} {node : CostNode}
    (hnode : node.Nonempty) : (lowering.lower idx node).Filled := by
  have hrange : ∀ {children : List CostNode}, children ≠ [] →
      lowering.out.length < lowering.out.length + children.length := fun hne => by
    have := List.length_pos_iff.mpr hne
    omega
  cases node with
  | leaf slot => exact h.fill trivial
  | sum children =>
    exact (h.reserve fun child hchild => NonemptyAll.mem hnode.2 hchild).fill (hrange hnode.1)
  | max overlap children =>
    exact (h.reserve fun child hchild => NonemptyAll.mem hnode.2 hchild).fill (hrange hnode.1)
  | parallel overlap children =>
    exact (h.reserve fun child hchild => NonemptyAll.mem hnode.2 hchild).fill (hrange hnode.1)
  | scale n child =>
    refine (h.reserve fun child' hchild => ?_).fill rfl
    rw [List.mem_singleton.mp hchild]
    exact hnode
  | labeled label child =>
    refine ⟨fun e he => ?_, h.filled⟩
    rcases List.mem_append.mp he with he | he
    · exact h.queued e he
    · rw [List.mem_singleton.mp he]
      exact hnode

theorem Filled.drain (h : lowering.Filled) (fuel : Nat) :
    (drain fuel lowering).Filled := by
  induction fuel generalizing lowering with
  | zero => exact h
  | succ fuel ih =>
    rw [Lowering.drain]
    split
    · exact h
    · next node idx rest hqueue =>
      have hrest : ({ lowering with queue := rest } : Lowering).Filled :=
        ⟨fun e he => h.queued e (by rw [hqueue]; exact List.mem_cons_of_mem _ he), h.filled⟩
      exact ih (hrest.lower (h.queued (node, idx) (by rw [hqueue]; exact List.mem_cons_self)))

end Lowering

theorem eq_map_of_mapM_id {α : Type} {l : List (Option α)} {xs : List α}
    (h : l.mapM id = some xs) : l = xs.map some := by
  induction l generalizing xs with
  | nil =>
    cases h
    rfl
  | cons x l ih =>
    rw [List.mapM_cons] at h
    cases x with
    | none => cases h
    | some a =>
      cases hl : l.mapM id with
      | none =>
        rw [hl] at h
        cases h
      | some ys =>
        rw [hl] at h
        cases h
        rw [List.map_cons, ih hl]

theorem wellRanged_of_flattened {root : CostNode} (hroot : root.Nonempty)
    {nodes : List FlatCostNode} {labels : List (Option String)}
    (hok : root.flattenLabeled = .ok (nodes, labels)) : ∀ node ∈ nodes, node.WellRanged := by
  have hstart : Lowering.Filled ⟨[none], [none], [(root, 0)]⟩ := by
    refine ⟨fun e he => ?_, fun node hnode => ?_⟩
    · rw [List.mem_singleton.mp he]
      exact hroot
    · cases List.mem_singleton.mp hnode
  have hdrained := (hstart.drain root.size).filled
  intro node hnode
  cases hmap : (Lowering.drain root.size ⟨[none], [none], [(root, 0)]⟩).out.mapM id with
  | none =>
    simp only [flattenLabeled, hmap] at hok
    cases hok
  | some xs =>
    simp only [flattenLabeled, hmap] at hok
    cases hok
    exact hdrained node (eq_map_of_mapM_id hmap ▸ List.mem_map_of_mem hnode)

theorem flatTree_of_flattened {root : CostNode} (hroot : root.Nonempty)
    {nodes : List FlatCostNode} {labels : List (Option String)}
    (hok : root.flattenLabeled = .ok (nodes, labels)) (h : Flattened root nodes labels) :
    FlatTree nodes := by
  have hplace : ∀ {i : Nat} {node : FlatCostNode}, nodes[i]? = some node →
      (nodes.map some)[i]? = some (some node) := fun hi => by
    rw [List.getElem?_map, hi]
    rfl
  refine ⟨fun node hnode range hrange =>
      (wellRanged_of_flattened hroot hok node hnode).start_lt_stop hrange,
    fun i node range hi hrange => (h.forward i node range (hplace hi) hrange).1,
    fun node hnode range hrange => ?_, ?_⟩
  · obtain ⟨i, hi⟩ := List.mem_iff_getElem?.mp hnode
    have hstop := (h.forward i node range (hplace hi) hrange).2.2
    rwa [List.length_map] at hstop
  · intro i j node node' range range' c hi hj hrange hrange' hc hc'
    by_contra hne
    rw [ChildRange.mem_places] at hc hc'
    rcases h.disjoint i j node node' range range' hne (hplace hi) (hplace hj) hrange hrange' with
      hapart | hapart
    · omega
    · omega

theorem Lowered.lt_length {nodes : List FlatCostNode} {labels : List (Option String)} :
    ∀ (node : CostNode) {i : Nat} {outer : Option String}, Lowered nodes labels i outer node →
      i < nodes.length
  | .leaf _, _, _, h => (List.getElem?_eq_some_iff.mp h.2).1
  | .sum _, _, _, ⟨_, _, hi, _⟩ => (List.getElem?_eq_some_iff.mp hi).1
  | .max _ _, _, _, ⟨_, _, hi, _⟩ => (List.getElem?_eq_some_iff.mp hi).1
  | .parallel _ _, _, _, ⟨_, _, hi, _⟩ => (List.getElem?_eq_some_iff.mp hi).1
  | .scale _ _, _, _, ⟨_, _, hi, _⟩ => (List.getElem?_eq_some_iff.mp hi).1
  | .labeled _ child, _, _, h => Lowered.lt_length child h

namespace KernelTimeShare

/-! ## Times -/

section times

/-- A node's time from its children's. -/
def timeOf (slotTimes times : List ℚ) : FlatCostNode → ℚ
  | .leaf slot => slotTimes.getD slot 0
  | .sum children => (children.places.map fun child => times.getD child 0).sum
  | .max overlap children | .parallel overlap children =>
    maxChild times children / overlapDivisor overlap
  | .scale n children => n * times.getD children.start 0

theorem overlapDivisor_pos (overlap : ℚ) : 0 < overlapDivisor overlap :=
  lt_max_of_lt_right (by norm_num [timeEpsilonMs])

variable {nodes : List FlatCostNode} {slotTimes : List ℚ}

theorem getD_nonneg (hnonneg : ∀ t ∈ slotTimes, 0 ≤ t) (slot : Nat) :
    0 ≤ slotTimes.getD slot 0 := by
  rw [List.getD_eq_getElem?_getD]
  cases hslot : slotTimes[slot]? with
  | none => exact le_rfl
  | some t => exact hnonneg t (List.mem_of_getElem? hslot)

theorem nodeTime_eq (hnonneg : ∀ t ∈ slotTimes, 0 ≤ t) (times : List ℚ) (node : FlatCostNode) :
    nodeTime slotTimes times node = .ok (timeOf slotTimes times node) := by
  cases node with
  | leaf slot =>
    rw [nodeTime, ensure, if_pos (getD_nonneg hnonneg slot)]
    rfl
  | sum children => rfl
  | max overlap children => rfl
  | parallel overlap children => rfl
  | scale n children => rfl

theorem timeOf_congr {times times' : List ℚ} {node : FlatCostNode}
    (h : ∀ range, node.children = some range → range.start < range.stop ∧
      ∀ c ∈ range.places, times.getD c 0 = times'.getD c 0) :
    timeOf slotTimes times node = timeOf slotTimes times' node := by
  have hmap : ∀ range, node.children = some range →
      range.places.map (fun child => times.getD child 0) =
        range.places.map fun child => times'.getD child 0 := fun range hrange =>
    List.map_congr_left (h range hrange).2
  cases node with
  | leaf slot => rfl
  | sum children => rw [timeOf, timeOf, hmap children rfl]
  | max overlap children => rw [timeOf, timeOf, maxChild, maxChild, hmap children rfl]
  | parallel overlap children => rw [timeOf, timeOf, maxChild, maxChild, hmap children rfl]
  | scale n children =>
    obtain ⟨hsome, hsame⟩ := h children rfl
    rw [timeOf, timeOf, hsame _ (ChildRange.mem_places.mpr ⟨le_rfl, hsome⟩)]

theorem timesFrom_spec (hm : FlatTree nodes) (hnonneg : ∀ t ∈ slotTimes, 0 ≤ t) (k : Nat)
    {times : List ℚ} (hk : k ≤ nodes.length) (hlength : times.length = nodes.length) :
    ∃ times', timesFrom nodes slotTimes k times = .ok times' ∧ times'.length = nodes.length ∧
      (∀ i, k ≤ i → times'.getD i 0 = times.getD i 0) ∧
      ∀ i node, i < k → nodes[i]? = some node → times'.getD i 0 = timeOf slotTimes times' node := by
  induction k generalizing times with
  | zero => exact ⟨times, rfl, hlength, fun _ _ => rfl, fun i node hi => absurd hi (by omega)⟩
  | succ k ih =>
    have hnode : nodes[k]? = some nodes[k] := List.getElem?_eq_getElem _
    set time := timeOf slotTimes times nodes[k] with htime
    obtain ⟨times', hok, hlength', hkept, hlocal⟩ :=
      ih (by omega) (List.length_set.trans hlength : (times.set k time).length = nodes.length)
    have hset : ∀ i, k + 1 ≤ i → times'.getD i 0 = times.getD i 0 := fun i hi => by
      rw [hkept i (by omega), List.getD_eq_getElem?_getD, List.getElem?_set_ne (by omega),
        ← List.getD_eq_getElem?_getD]
    refine ⟨times', ?_, hlength', hset, fun i node hi hinode => ?_⟩
    · rw [timesFrom, List.getD_eq_getElem _ _ hk, nodeTime_eq hnonneg]
      exact hok
    · rcases Nat.lt_succ_iff_lt_or_eq.mp hi with hi | rfl
      · exact hlocal i node hi hinode
      · -- the children of place `i` lie behind it, where nothing changes any more
        obtain rfl : nodes[i] = node := Option.some.inj (hnode.symm.trans hinode)
        rw [hkept i le_rfl, List.getD_eq_getElem _ _ (by rw [List.length_set]; omega),
          List.getElem_set_self, htime]
        refine timeOf_congr fun range hrange =>
          ⟨hm.nonempty _ (List.getElem_mem _) range hrange, fun c hc => (hset c ?_).symm⟩
        have hbehind := hm.behind i _ range hnode hrange
        have hplace := ChildRange.mem_places.mp hc
        omega

/-- Times that solve the equation of every node. -/
structure Timed (nodes : List FlatCostNode) (slotTimes times : List ℚ) : Prop where
  length : times.length = nodes.length
  solves : ∀ i node, nodes[i]? = some node → times.getD i 0 = timeOf slotTimes times node
  nonneg : ∀ i, 0 ≤ times.getD i 0

theorem foldl_max_nonneg (values : List ℚ) (acc : ℚ) : acc ≤ values.foldl Max.max acc := by
  induction values generalizing acc with
  | nil => exact le_rfl
  | cons value values ih => exact (le_max_left acc value).trans (ih _)

theorem nodeTimes_spec (hm : FlatTree nodes) (hnonneg : ∀ t ∈ slotTimes, 0 ≤ t) :
    ∃ times, nodeTimes nodes slotTimes = .ok times ∧ Timed nodes slotTimes times := by
  obtain ⟨times, hok, hlength, -, hsolves⟩ := timesFrom_spec hm hnonneg nodes.length le_rfl
    (List.length_replicate : (List.replicate nodes.length (0 : ℚ)).length = nodes.length)
  have hsolves' : ∀ i node, nodes[i]? = some node →
      times.getD i 0 = timeOf slotTimes times node := fun i node hi =>
    hsolves i node (List.getElem?_eq_some_iff.mp hi).1 hi
  refine ⟨times, hok, hlength, hsolves', fun i => ?_⟩
  by_cases hi : i < nodes.length
  · refine hm.tree.toForward.induction (P := fun i => 0 ≤ times.getD i 0) (fun i hi ih => ?_) i hi
    have hnode : nodes[i]? = some nodes[i] := List.getElem?_eq_getElem hi
    rw [hsolves' i _ hnode]
    rw [childPlaces_eq hnode] at ih
    cases hcase : nodes[i] with
    | leaf slot => exact getD_nonneg hnonneg slot
    | sum children =>
      rw [hcase] at ih
      refine List.sum_nonneg fun t ht => ?_
      obtain ⟨c, hc, rfl⟩ := List.mem_map.mp ht
      exact ih c hc
    | max overlap children =>
      exact div_nonneg (foldl_max_nonneg _ 0) (overlapDivisor_pos overlap).le
    | parallel overlap children =>
      exact div_nonneg (foldl_max_nonneg _ 0) (overlapDivisor_pos overlap).le
    | scale n children =>
      rw [hcase] at ih
      exact mul_nonneg (Nat.cast_nonneg n) (ih _ (List.mem_singleton_self _))
  · rw [List.getD_eq_default _ _ (by omega)]

/-! ## The simulator's times -/

variable {labels : List (Option String)} {times : List ℚ} {buf : List LeafMetrics}

theorem timeMs_getD (hbuf : buf.map (fun metrics => metrics.m.timeMs) = slotTimes) (slot : Nat) :
    slotTimes.getD slot 0 = (buf.getD slot .zero).m.timeMs := by
  rw [← hbuf, List.getD_eq_getElem?_getD, List.getD_eq_getElem?_getD, List.getElem?_map]
  cases buf[slot]? with
  | none => rfl
  | some metrics => rfl

theorem nonneg_of_buf (hbuf : buf.map (fun metrics => metrics.m.timeMs) = slotTimes)
    (hnonneg : ∀ t ∈ slotTimes, 0 ≤ t) : ∀ metrics ∈ buf, 0 ≤ metrics.m.timeMs :=
  fun _ hmetrics => hnonneg _ (hbuf ▸ List.mem_map_of_mem hmetrics)

theorem maxChild_eq {children : List CostNode} {start : Nat} {overlap : ℚ}
    (hmap : ((⟨start, start + children.length⟩ : ChildRange).places.map fun c => times.getD c 0) =
      (meanings buf children).map fun metrics => metrics.m.timeMs)
    (hnonneg : ∀ metrics ∈ meanings buf children, 0 ≤ metrics.m.timeMs)
    (hleast : timeEpsilonMs ≤ overlap) :
    maxChild times ⟨start, start + children.length⟩ / overlapDivisor overlap =
      (fanOut overlap (meanings buf children)).m.timeMs := by
  rw [maxChild, hmap, List.foldl_map, foldl_max_eq _ hnonneg, overlapDivisor, max_eq_left hleast]
  rfl

mutual

theorem time_meaning (ht : Timed nodes slotTimes times)
    (hbuf : buf.map (fun metrics => metrics.m.timeMs) = slotTimes)
    (hnonneg : ∀ t ∈ slotTimes, 0 ≤ t) :
    ∀ (node : CostNode) (i : Nat) (outer : Option String), Lowered nodes labels i outer node →
      node.OverlapsAtLeast timeEpsilonMs → times.getD i 0 = (meaning buf node).m.timeMs
  | .leaf slot, i, outer, h, _ => by
    rw [ht.solves i _ h.2, timeOf, timeMs_getD hbuf, meaning]
  | .sum children, i, outer, ⟨_, start, hi, hall⟩, hleast => by
    rw [ht.solves i _ hi, timeOf, times_meanings ht hbuf hnonneg children start hall hleast,
      meaning]
    rfl
  | .max overlap children, i, outer, ⟨_, start, hi, hall⟩, hleast => by
    rw [ht.solves i _ hi, timeOf, maxChild_eq
      (times_meanings ht hbuf hnonneg children start hall hleast.2)
      (meanings_time_nonneg (nonneg_of_buf hbuf hnonneg) children
        (OverlapsAtLeastAll.positive (by norm_num [timeEpsilonMs]) children hleast.2)) hleast.1,
      meaning]
  | .parallel overlap children, i, outer, ⟨_, start, hi, hall⟩, hleast => by
    rw [ht.solves i _ hi, timeOf, maxChild_eq
      (times_meanings ht hbuf hnonneg children start hall hleast.2)
      (meanings_time_nonneg (nonneg_of_buf hbuf hnonneg) children
        (OverlapsAtLeastAll.positive (by norm_num [timeEpsilonMs]) children hleast.2)) hleast.1,
      meaning]
  | .scale n child, i, outer, ⟨_, start, hi, hchild⟩, hleast => by
    rw [ht.solves i _ hi, timeOf, time_meaning ht hbuf hnonneg child start none hchild hleast,
      meaning]
    rfl
  | .labeled label child, i, outer, h, hleast =>
    time_meaning ht hbuf hnonneg child i (outer.or (some label)) h hleast

theorem times_meanings (ht : Timed nodes slotTimes times)
    (hbuf : buf.map (fun metrics => metrics.m.timeMs) = slotTimes)
    (hnonneg : ∀ t ∈ slotTimes, 0 ≤ t) :
    ∀ (children : List CostNode) (start : Nat), LoweredAll nodes labels start children →
      OverlapsAtLeastAll timeEpsilonMs children →
      ((⟨start, start + children.length⟩ : ChildRange).places.map fun c => times.getD c 0) =
        (meanings buf children).map fun metrics => metrics.m.timeMs
  | [], start, _, _ => by simp [ChildRange.places, meanings]
  | child :: children, start, ⟨hchild, hall⟩, hleast => by
    have hfirst := time_meaning ht hbuf hnonneg child start none hchild hleast.1
    have hothers := times_meanings ht hbuf hnonneg children (start + 1) hall hleast.2
    rw [ChildRange.places, Nat.add_sub_cancel_left] at hothers ⊢
    rw [List.length_cons, List.range'_succ, List.map_cons, hfirst, hothers, meanings, List.map_cons]

end

end times

end KernelTimeShare

end ServingSim
