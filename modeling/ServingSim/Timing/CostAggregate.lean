import ServingSim.Timing.CostLowering

/-
  Rolling a buffer of leaf metrics up the lowered tree gives what the tree means.

  The reverse pass meets the children of a place before the place, because every
  child range lies behind its parent. So the array it leaves behind solves, at
  every place, the equation of the node there (`rollUp_spec`), and the array that
  holds a tree has one solution at its root, the recursive meaning (`rolled`).

  The pass starts the largest time of a fan-out at zero. With overlaps and leaf
  times that are not negative no time is below it; a negative overlap under
  another fan-out is lost (`aggregate_negative_overlap`).

  What is proved:
    1. `CostNode.aggregate_flatten` — the pass over the lowered tree gives the
       recursive meaning; the ranges are apart, in bounds and behind their parents;
       each place carries its outermost label.
-/

namespace ServingSim

open CostNode

/-! ## The reverse pass -/

/-- The node's leaf is in the buffer, its children are in the array. -/
structure FlatCostNode.InBounds (buf : List LeafMetrics) (len : Nat) (node : FlatCostNode) :
    Prop where
  leaf : ∀ slot : Nat, node = .leaf slot → slot < buf.length
  children : ∀ range : ChildRange, node.children = some range → range.stop ≤ len

theorem childMetrics_congr {scratch scratch' : List LeafMetrics} {range : ChildRange}
    (h : ∀ c : Nat, range.start ≤ c → scratch[c]? = scratch'[c]?) :
    childMetrics scratch range = childMetrics scratch' range := by
  refine mapM_congr fun c hc => ?_
  rw [List.mem_range'_1] at hc
  exact h c hc.1

theorem childMetrics_isSome {scratch : List LeafMetrics} {range : ChildRange}
    (h : range.stop ≤ scratch.length) : ∃ metrics, childMetrics scratch range = some metrics := by
  have hall : ∀ c ∈ List.range' range.start (range.stop - range.start), c < scratch.length := by
    intro c hc
    rw [List.mem_range'_1] at hc
    omega
  unfold childMetrics
  generalize List.range' range.start (range.stop - range.start) = places at hall
  induction places with
  | nil => exact ⟨[], rfl⟩
  | cons c places ih =>
    obtain ⟨metrics, hmetrics⟩ := ih fun c' hc' => hall c' (List.mem_cons_of_mem _ hc')
    obtain ⟨first, hfirst⟩ : ∃ first, scratch[c]? = some first :=
      ⟨_, List.getElem?_eq_getElem (hall c List.mem_cons_self)⟩
    exact ⟨first :: metrics, by simp [List.mapM_cons, hfirst, hmetrics]⟩

theorem combine_congr {buf scratch scratch' : List LeafMetrics} {node : FlatCostNode}
    (h : ∀ range : ChildRange, node.children = some range →
      ∀ c : Nat, range.start ≤ c → scratch[c]? = scratch'[c]?) :
    combine buf scratch node = combine buf scratch' node := by
  cases node with
  | leaf slot => rfl
  | _ => rw [combine, combine, childMetrics_congr (h _ rfl)]

theorem combine_isSome {buf scratch : List LeafMetrics} {node : FlatCostNode}
    (h : node.InBounds buf scratch.length) : ∃ metrics,
        combine buf scratch node = some metrics := by
  cases node with
  | leaf slot => exact ⟨_, List.getElem?_eq_getElem (h.leaf slot rfl)⟩
  | _ =>
    obtain ⟨metrics, hmetrics⟩ := childMetrics_isSome (h.children _ rfl)
    simp [combine, hmetrics]

/-- The array the pass leaves behind: untouched from `k` on, and below `k` what the
node there makes of its children. -/
theorem rollUp_spec {flat : List FlatCostNode} {buf : List LeafMetrics}
    (hforward : RangesForward (flat.map some))
    (hbounds : ∀ (i : Nat) (node : FlatCostNode), flat[i]? = some node →
      node.InBounds buf flat.length)
    (k : Nat) (scratch : List LeafMetrics) (hk : k ≤ flat.length)
    (hlength : scratch.length = flat.length) :
    ∃ rolled : List LeafMetrics, rollUp flat buf k scratch = some rolled ∧
      (∀ i : Nat, k ≤ i → rolled[i]? = scratch[i]?) ∧
      ∀ (i : Nat) (node : FlatCostNode), i < k → flat[i]? = some node →
        combine buf rolled node = rolled[i]? := by
  induction k generalizing scratch with
  | zero => exact ⟨scratch, rfl, fun _ _ => rfl, fun i node hi => absurd hi (by omega)⟩
  | succ k ih =>
    have hnode : flat[k]? = some flat[k] := List.getElem?_eq_getElem _
    obtain ⟨metrics, hmetrics⟩ := combine_isSome (hlength ▸ hbounds k _ hnode)
    obtain ⟨rolled, hrolled, hkept, hlocal⟩ :=
      ih (scratch.set k metrics) (by omega) (by rw [List.length_set, hlength])
    have hset : ∀ i : Nat, k + 1 ≤ i → rolled[i]? = scratch[i]? := by
      intro i hi
      rw [hkept i (by omega), List.getElem?_set_ne (by omega)]
    refine ⟨rolled, by simp [rollUp, hnode, hmetrics, hrolled], hset, ?_⟩
    intro i node hi hinode
    rcases Nat.lt_succ_iff_lt_or_eq.mp hi with hi | rfl
    · exact hlocal i node hi hinode
    · -- the children of place `k` lie behind it, where nothing changes any more
      obtain rfl : flat[i] = node := Option.some.inj (hnode.symm.trans hinode)
      rw [hkept i le_rfl, List.getElem?_set_self (by omega), ← hmetrics]
      refine combine_congr fun range hrange c hc => hset c ?_
      have := (hforward i _ range (by rw [List.getElem?_map, hnode]; rfl) hrange).1
      omega

/-! ## The folds of one place -/

theorem foldl_add (metrics : List LeafMetrics) (acc : LeafMetrics) :
    metrics.foldl LeafMetrics.add acc =
      { m :=
          { timeMs := acc.m.timeMs + (serial metrics).m.timeMs
            flops := acc.m.flops + (serial metrics).m.flops
            bytes := acc.m.bytes + (serial metrics).m.bytes
            energyJ := acc.m.energyJ + (serial metrics).m.energyJ }
        coverage := acc.coverage ||| (serial metrics).coverage
        backendIndex := acc.backendIndex } := by
  induction metrics generalizing acc with
  | nil => simp [serial]
  | cons child metrics ih =>
    rw [List.foldl_cons, ih]
    simp [serial, LeafMetrics.add, Metrics4.addScaled, add_assoc, BitVec.or_assoc]

theorem addAll_eq_serial (metrics : List LeafMetrics) : addAll metrics = serial metrics := by
  rw [addAll, foldl_add]
  simp [LeafMetrics.zero, Metrics4.zero, serial]

theorem scale_addAll (n : Nat) (child : LeafMetrics) :
    (addAll [child]).scale n = repeated n child := by
  rw [addAll_eq_serial]
  simp [serial, LeafMetrics.scale, Metrics4.scale, repeated, mul_comm]

theorem foldl_max_eq (metrics : List LeafMetrics) (h : ∀ child ∈ metrics, 0 ≤ child.m.timeMs) :
    metrics.foldl (fun time child => max time child.m.timeMs) 0 = largestTime metrics := by
  cases metrics with
  | nil => rfl
  | cons child metrics =>
    have hfirst : max 0 child.m.timeMs = child.m.timeMs := max_eq_right (h child List.mem_cons_self)
    rw [largestTime, List.map_cons, List.max?_cons', Option.getD_some, List.foldl_map,
      List.foldl_cons, hfirst]

theorem overlapped_eq_fanOut (overlap : ℚ) (metrics : List LeafMetrics)
    (h : ∀ child ∈ metrics, 0 ≤ child.m.timeMs) :
    overlapped overlap metrics = fanOut overlap metrics := by
  rw [overlapped, fanOut, foldl_max_eq metrics h, addAll_eq_serial]

theorem serial_time_nonneg {metrics : List LeafMetrics}
    (h : ∀ child ∈ metrics, 0 ≤ child.m.timeMs) : 0 ≤ (serial metrics).m.timeMs := by
  refine List.sum_nonneg ?_
  intro time htime
  obtain ⟨child, hchild, rfl⟩ := List.mem_map.mp htime
  exact h child hchild

theorem largestTime_nonneg {metrics : List LeafMetrics}
    (h : ∀ child ∈ metrics, 0 ≤ child.m.timeMs) : 0 ≤ largestTime metrics := by
  rw [largestTime]
  cases hmax : (metrics.map fun child => child.m.timeMs).max? with
  | none => exact le_rfl
  | some time =>
    obtain ⟨child, hchild, rfl⟩ := List.mem_map.mp (List.max?_mem hmax)
    exact h child hchild

namespace CostNode

variable {buf : List LeafMetrics}

/-! ## The meaning of a tree -/

mutual

theorem meaning_time_nonneg (htimes : ∀ metrics ∈ buf, 0 ≤ metrics.m.timeMs) :
    ∀ node : CostNode, node.OverlapsPositive → 0 ≤ (meaning buf node).m.timeMs
  | .leaf slot, _ => by
    show 0 ≤ (buf.getD slot .zero).m.timeMs
    rw [List.getD_eq_getElem?_getD]
    cases hslot : buf[slot]? with
    | none => exact le_rfl
    | some metrics => exact htimes metrics (List.mem_of_getElem? hslot)
  | .sum children, h => serial_time_nonneg (meanings_time_nonneg htimes children h)
  | .max overlap children, h | .parallel overlap children, h =>
    div_nonneg (largestTime_nonneg (meanings_time_nonneg htimes children h.2)) h.1.le
  | .scale n child, h => mul_nonneg (Nat.cast_nonneg n) (meaning_time_nonneg htimes child h)
  | .labeled _ child, h => meaning_time_nonneg htimes child h

theorem meanings_time_nonneg (htimes : ∀ metrics ∈ buf, 0 ≤ metrics.m.timeMs) :
    ∀ children : List CostNode, OverlapsPositiveAll children →
    ∀ metrics ∈ meanings buf children, 0 ≤ metrics.m.timeMs
  | [], _ => nofun
  | child :: children, h => by
    intro metrics hmetrics
    rcases List.mem_cons.mp hmetrics with rfl | hmetrics
    · exact meaning_time_nonneg htimes child h.1
    · exact meanings_time_nonneg htimes children h.2 metrics hmetrics

end

/-- The union of the leaves' warnings. -/
def unionCoverage (buf : List LeafMetrics) (slots : List Nat) : CoverageFlags :=
  (slots.map fun slot => (buf.getD slot .zero).coverage).foldr (· ||| ·) 0

theorem unionCoverage_append (slots slots' : List Nat) :
    unionCoverage buf (slots ++ slots') = unionCoverage buf slots ||| unionCoverage buf slots' := by
  induction slots with
  | nil => simp [unionCoverage]
  | cons slot slots ih =>
    simp only [unionCoverage, List.cons_append, List.map_cons, List.foldr_cons] at ih ⊢
    rw [ih, BitVec.or_assoc]

mutual

theorem coverage_meaning : ∀ node : CostNode,
    (meaning buf node).coverage = unionCoverage buf node.leafSlots
  | .leaf slot => by simp [meaning, leafSlots, unionCoverage]
  | .sum children | .max _ children | .parallel _ children => coverage_meanings children
  | .scale _ child => coverage_meaning child
  | .labeled _ child => coverage_meaning child

theorem coverage_meanings : ∀ children : List CostNode,
    (serial (meanings buf children)).coverage = unionCoverage buf (leafSlotsAll children)
  | [] => rfl
  | child :: children => by
    rw [leafSlotsAll, unionCoverage_append, ← coverage_meaning child, ← coverage_meanings children]
    rfl

end

/-! ## The array of a lowered tree -/

section rolled

variable {nodes : List FlatCostNode} {labels : List (Option String)} {rolled : List LeafMetrics}

/-- The array solves the equation of every place. -/
def Solves (buf : List LeafMetrics) (nodes : List FlatCostNode) (rolled : List LeafMetrics) :
    Prop :=
  ∀ (i : Nat) (node : FlatCostNode), nodes[i]? = some node → combine buf rolled node = rolled[i]?

mutual

theorem rolled_meaning (htimes : ∀ metrics ∈ buf, 0 ≤ metrics.m.timeMs)
    (hsolves : Solves buf nodes rolled) : ∀ (node : CostNode) (i : Nat) (outer : Option String),
    Lowered nodes labels i outer node → node.OverlapsPositive →
    (∀ slot ∈ node.leafSlots, slot < buf.length) → rolled[i]? = some (meaning buf node)
  | .leaf slot, i, outer, h, _, hslots => by
    have hlt : slot < buf.length := hslots slot (by simp [leafSlots])
    rw [← hsolves i _ h.2, combine, meaning, List.getD_eq_getElem?_getD,
      List.getElem?_eq_getElem hlt, Option.getD_some]
  | .sum children, i, outer, ⟨_, start, hi, hall⟩, hpos, hslots => by
    rw [← hsolves i _ hi, combine, rolled_meanings htimes hsolves children start hall hpos hslots,
        Option.map_some,
      addAll_eq_serial, meaning]
  | .max overlap children, i, outer, ⟨_, start, hi, hall⟩, hpos, hslots => by
    rw [← hsolves i _ hi, combine, rolled_meanings htimes hsolves children start hall hpos.2 hslots,
      Option.map_some, overlapped_eq_fanOut _ _ (meanings_time_nonneg htimes children hpos.2),
      meaning]
  | .parallel overlap children, i, outer, ⟨_, start, hi, hall⟩, hpos, hslots => by
    rw [← hsolves i _ hi, combine, rolled_meanings htimes hsolves children start hall hpos.2 hslots,
      Option.map_some, overlapped_eq_fanOut _ _ (meanings_time_nonneg htimes children hpos.2),
      meaning]
  | .scale n child, i, outer, ⟨_, start, hi, hchild⟩, hpos, hslots => by
    have hone := rolled_meaning htimes hsolves child start none hchild hpos hslots
    have hmetrics : childMetrics rolled ⟨start, start + 1⟩ = some [meaning buf child] := by
      simp [childMetrics, hone]
    rw [← hsolves i _ hi, combine, hmetrics, Option.map_some, scale_addAll, meaning]
  | .labeled label child, i, outer, h, hpos, hslots =>
    rolled_meaning htimes hsolves child i (outer.or (some label)) h hpos hslots

theorem rolled_meanings (htimes : ∀ metrics ∈ buf, 0 ≤ metrics.m.timeMs)
    (hsolves : Solves buf nodes rolled) : ∀ (children : List CostNode) (start : Nat),
    LoweredAll nodes labels start children → OverlapsPositiveAll children →
    (∀ slot ∈ leafSlotsAll children, slot < buf.length) →
    childMetrics rolled ⟨start, start + children.length⟩ = some (meanings buf children)
  | [], start, _, _, _ => by simp [childMetrics, meanings]
  | child :: children, start, ⟨hchild, hall⟩, hpos, hslots => by
    have hfirst := rolled_meaning htimes hsolves child start none hchild hpos.1 fun slot hslot =>
      hslots slot (List.mem_append_left _ hslot)
    have hothers := rolled_meanings htimes hsolves children (start + 1) hall hpos.2
        fun slot hslot =>
      hslots slot (List.mem_append_right _ hslot)
    simp only [childMetrics, Nat.add_sub_cancel_left] at hothers
    simp [childMetrics, List.range'_succ, List.mapM_cons, hfirst, hothers, meanings]

end

end rolled

/-! ## The lowered tree, rolled up -/

theorem Flattened.aggregate_eq {root : CostNode} {nodes : List FlatCostNode}
    {labels : List (Option String)} (h : Flattened root nodes labels) (hfills : Fills buf root)
    (hpos : root.OverlapsPositive) : aggregate nodes buf = some (root.meaning buf) := by
  have hbounds : ∀ (i : Nat) (node : FlatCostNode), nodes[i]? = some node →
      node.InBounds buf nodes.length := by
    intro i node hi
    refine ⟨fun slot hslot => hfills.slots slot (h.slots i slot (hslot ▸ hi)), ?_⟩
    intro range hrange
    have hstop := (h.forward i node range (by rw [List.getElem?_map, hi]; rfl) hrange).2.2
    rwa [List.length_map] at hstop
  obtain ⟨rolled, hrolled, -, hlocal⟩ := rollUp_spec h.forward hbounds nodes.length
    (List.replicate nodes.length .zero) le_rfl List.length_replicate
  have hroot : rolled[0]? = some (root.meaning buf) := rolled_meaning hfills.times
      (fun i node hi => hlocal i node (List.getElem?_eq_some_iff.mp hi).1 hi)
      root 0 none h.tree hpos hfills.slots
  have hnonempty : nodes.isEmpty = false := by
    cases nodes with
    | nil =>
      have hnone : rolled = [] := by simpa [rollUp] using hrolled.symm
      rw [hnone] at hroot
      simp at hroot
    | cons => rfl
  simp [aggregate, hnonempty, hrolled, hroot]

/-- The lowering of a tree always succeeds, and rolling a buffer up it gives what the
tree means. -/
theorem aggregate_flatten (root : CostNode) :
    ∃ (nodes : List FlatCostNode) (labels : List (Option String)),
      root.flattenLabeled = .ok (nodes, labels) ∧ root.flatten = .ok nodes ∧
      Lowered nodes labels 0 none root ∧ labels.length = nodes.length ∧
      RangesForward (nodes.map some) ∧ RangesDisjoint (nodes.map some) ∧
      ∀ buf : List LeafMetrics, Fills buf root → root.OverlapsPositive →
        aggregate nodes buf = some (root.meaning buf) ∧
        (root.meaning buf).coverage = unionCoverage buf root.leafSlots := by
  obtain ⟨nodes, labels, hok, hflattened⟩ := flattenLabeled_spec root
  refine ⟨nodes, labels, hok, by simp [flatten, hok, bind, Except.bind, pure, Except.pure],
    hflattened.tree,
    hflattened.length, hflattened.forward, hflattened.disjoint, ?_⟩
  intro buf hfills hpos
  exact ⟨hflattened.aggregate_eq hfills hpos, coverage_meaning root⟩

/-- A serial step, a repeated pair of them, and a labelled one. -/
def sampleTree : CostNode :=
  .sum [.leaf 0, .scale 3 (.sum [.leaf 1, .leaf 2]), .labeled "tail" (.max 1 [.leaf 3])]

def sampleBuf : List LeafMetrics :=
  [1, 2, 3, 4].map fun timeMs => ⟨⟨timeMs, 0, 0, 0⟩, 0, 0⟩

theorem aggregate_flatten_sample : ∃ nodes : List FlatCostNode, sampleTree.flatten = .ok nodes ∧
        aggregate nodes sampleBuf = some (sampleTree.meaning sampleBuf) := by
  have hfills : Fills sampleBuf sampleTree := ⟨by decide, by decide +kernel⟩
  have hpos : sampleTree.OverlapsPositive := by
    simp [sampleTree, OverlapsPositive, OverlapsPositiveAll]
  obtain ⟨nodes, _, _, hflatten, _, _, _, _, haggregate⟩ := aggregate_flatten sampleTree
  exact ⟨nodes, hflatten, (haggregate sampleBuf hfills hpos).1⟩

/-- A fan-out over a negative overlap has a negative time; the fan-out around it takes
zero instead. -/
theorem aggregate_negative_overlap :
    let root : CostNode := .max 1 [.max (-1) [.leaf 0]]
    let buf : List LeafMetrics := [⟨⟨5, 0, 0, 0⟩, 0, 0⟩]
    Fills buf root ∧ ∃ nodes : List FlatCostNode, root.flatten = .ok nodes ∧
      (aggregate nodes buf).map (fun metrics => metrics.m.timeMs) = some 0 ∧
      (root.meaning buf).m.timeMs = -5 := by
  refine ⟨⟨by decide, by decide +kernel⟩, [.max 1 ⟨1, 2⟩, .max (-1) ⟨2, 3⟩, .leaf 0], ?_, ?_, ?_⟩
  · rfl
  · decide +kernel
  · decide +kernel

end CostNode

end ServingSim
