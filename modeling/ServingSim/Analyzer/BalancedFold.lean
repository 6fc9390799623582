import Mathlib.Data.Rat.Defs
import Mathlib.Order.WithBot
import ServingSim.Lib.ForwardTree
import ServingSim.Timing.CostLowering

/-
  The balanced fold of a cost tree (`trace::manifest`).

  A fold reads the flat array from a root: it rolls the values of the leaves up, leaving
  the value of every node it passes in a scratch buffer, and then pushes a weight down,
  from the root to the leaves, reading the buffer where streams are concurrent.

  A rung's values are exact rationals. The recursions take turns, one for each node of
  the array; an index out of bounds is `none`. `visit` is the list of its calls.
-/

namespace ServingSim

/-- The places of a range, in order. -/
def ChildRange.places (children : ChildRange) : List Nat :=
  List.range' children.start (children.stop - children.start)

/-- The places a fold goes down to; a repeat has its one child at the start of its range. -/
def FlatCostNode.visited : FlatCostNode → List Nat
  | leaf _ => []
  | sum children | max _ children | parallel _ children => children.places
  | scale _ children => [children.start]

namespace BalancedFold

/-- A value for each rung. -/
abbrev Rungs (R : Nat) := Fin R → ℚ

variable {R : Nat}

def add (sum value : Rungs R) : Rungs R := fun r => sum r + value r

/-- The larger value of each rung. -/
def larger (max child : Rungs R) : Rungs R := fun r => Max.max (max r) (child r)

def overlapDivisor (overlap : ℚ) : ℚ := Max.max overlap (1 / 10 ^ 9)

/-! ## Rolling up -/

/-- A composite's loop over its children: evaluate each and take it into the value so far. -/
def accumulate (evaluate : Nat → List (Rungs R) → Option (Rungs R × List (Rungs R)))
    (step : Rungs R → Rungs R → Rungs R) :
    List Nat → Rungs R → List (Rungs R) → Option (Rungs R × List (Rungs R))
  | [], value, scratch => some (value, scratch)
  | c :: children, value, scratch => do
    let child ← evaluate c scratch
    accumulate evaluate step children (step value child.1) child.2

/-- The value of a node, its children evaluated first. -/
def evaluateNode (leafValue : Nat → Rungs R)
    (evaluate : Nat → List (Rungs R) → Option (Rungs R × List (Rungs R)))
    (scratch : List (Rungs R)) : FlatCostNode → Option (Rungs R × List (Rungs R))
  | .leaf slot => some (leafValue slot, scratch)
  | .sum children => accumulate evaluate add children.places 0 scratch
  | .scale n children => do
    let child ← evaluate children.start scratch
    some (fun r => child.1 r * n, child.2)
  | .max overlap children => do
    let sum ← accumulate evaluate add children.places 0 scratch
    let divisor := (Max.max children.places.length 1 : Nat) * overlapDivisor overlap
    some (fun r => sum.1 r / divisor, sum.2)
  | .parallel overlap children => do
    let max ← accumulate evaluate larger children.places 0 scratch
    let divisor := overlapDivisor overlap
    some (fun r => max.1 r / divisor, max.2)

/-- Roll the subtree of a node up, in at most so many turns. -/
def evaluate (m : List FlatCostNode) (leafValue : Nat → Rungs R) :
    Nat → Nat → List (Rungs R) → Option (Rungs R × List (Rungs R))
  | 0, _, _ => none
  | turns + 1, idx, scratch => do
    let node ← m[idx]?
    let value ← evaluateNode leafValue (evaluate m leafValue turns) scratch node
    some (value.1, value.2.set idx value.1)

/-! ## Pushing down -/

/-- The largest child value of each rung so far, and how many children have it. -/
structure Slowest (R : Nat) where
  max : Fin R → WithBot ℚ
  ties : Fin R → Nat

def Slowest.start : Slowest R := ⟨fun _ => ⊥, fun _ => 0⟩

def Slowest.take (slowest : Slowest R) (child : Rungs R) : Slowest R where
  max r := if slowest.max r < child r then child r else slowest.max r
  ties r :=
    if slowest.max r < child r then 1
    else if (child r : WithBot ℚ) = slowest.max r then slowest.ties r + 1
    else slowest.ties r

/-- The weight of a stream: each rung's goes to that rung's slowest, ties evenly. -/
def streamWeight (weight : Rungs R) (divisor : ℚ) (slowest : Slowest R) (child : Rungs R) :
    Rungs R := fun r =>
  if (child r : WithBot ℚ) = slowest.max r then weight r / divisor / slowest.ties r else 0

/-- Go down to the children in order, each with its weight. -/
def attributeChildren (attributeChild : Nat → Rungs R → Option (List (Nat × Rungs R)))
    (children : List Nat) (childWeight : Nat → Option (Rungs R)) :
    Option (List (Nat × Rungs R)) := do
  let visits ← children.mapM fun c => do
    let weight ← childWeight c
    attributeChild c weight
  some visits.flatten

/-- Push a weight (the ancestors' multiplier) down from a node to the leaves. -/
def attributeWeight (m : List FlatCostNode) (valueByNode : List (Rungs R)) :
    Nat → Nat → Rungs R → Option (List (Nat × Rungs R))
  | 0, _, _ => none
  | turns + 1, idx, weight => do
    let node ← m[idx]?
    match node with
    | .leaf slot => do
      let value ← valueByNode[idx]?
      some [(slot, fun r => weight r * value r)]
    | .sum children =>
      attributeChildren (attributeWeight m valueByNode turns) children.places
        fun _ => some weight
    | .scale n children =>
      attributeChildren (attributeWeight m valueByNode turns) [children.start]
        fun _ => some fun r => weight r * n
    | .max overlap children =>
      let divisor := (Max.max children.places.length 1 : Nat) * overlapDivisor overlap
      attributeChildren (attributeWeight m valueByNode turns) children.places
        fun _ => some fun r => weight r / divisor
    | .parallel overlap children => do
      let divisor := overlapDivisor overlap
      let values ← children.places.mapM fun c => valueByNode[c]?
      let slowest := values.foldl Slowest.take .start
      attributeChildren (attributeWeight m valueByNode turns) children.places
        fun c => (valueByNode[c]?).map (streamWeight weight divisor slowest)

/-- What a fold returns: the value, its calls of `visit`, and the scratch it leaves. -/
structure Folded (R : Nat) where
  value : Rungs R
  visits : List (Nat × Rungs R)
  scratch : List (Rungs R)

def fold (m : List FlatCostNode) (root : Nat) (scale : ℚ) (leafValue : Nat → Rungs R)
    (scratch : List (Rungs R)) : Option (Folded R) := do
  let scratch := if scratch.length < m.length then resize scratch m.length 0 else scratch
  let evaluated ← evaluate m leafValue m.length root scratch
  let visits ← attributeWeight m evaluated.2 m.length root fun _ => scale
  some ⟨fun r => evaluated.1 r * scale, visits, evaluated.2⟩

/-! ## Wall-clock time -/

/-- The time of a subtree with the maximum at every fan-out, in exact arithmetic. -/
def exactNodeTime (m : List FlatCostNode) (slotNs : List Int) : Nat → Nat → Option ℚ
  | 0, _ => none
  | turns + 1, idx => do
    let node ← m[idx]?
    match node with
    | .leaf slot => some (slotNs.getD slot 0)
    | .sum children => do
      let times ← children.places.mapM (exactNodeTime m slotNs turns)
      some times.sum
    | .max overlap children | .parallel overlap children => do
      let times ← children.places.mapM (exactNodeTime m slotNs turns)
      some (times.max?.getD 0 / overlapDivisor overlap)
    | .scale n children => do
      let time ← exactNodeTime m slotNs turns children.start
      some (n * time)

end BalancedFold

/-! ## The tree -/

/-- Every composite has children, behind it, within the array and its own. -/
structure FlatTree (m : List FlatCostNode) : Prop where
  nonempty : ∀ node ∈ m, ∀ range, node.children = some range → range.start < range.stop
  behind : ∀ (i : Nat) (node : FlatCostNode) (range : ChildRange), m[i]? = some node →
    node.children = some range → i < range.start
  within : ∀ node ∈ m, ∀ range, node.children = some range → range.stop ≤ m.length
  apart : ∀ (i j : Nat) (node node' : FlatCostNode) (range range' : ChildRange) (c : Nat),
    m[i]? = some node → m[j]? = some node' →
    node.children = some range → node'.children = some range' →
    c ∈ range.places → c ∈ range'.places → i = j

theorem flatTree_of_forall {m : List FlatCostNode} (h : ∀ i ∈ List.range m.length,
    ∀ node ∈ m[i]?, ∀ range ∈ node.children,
      i < range.start ∧ range.start < range.stop ∧ range.stop ≤ m.length ∧
      ∀ j ∈ List.range m.length, ∀ node' ∈ m[j]?, ∀ range' ∈ node'.children,
        ∀ c ∈ range.places, c ∈ range'.places → i = j) : FlatTree m := by
  have hplace : ∀ {i : Nat} {node : FlatCostNode}, m[i]? = some node → i ∈ List.range m.length :=
    fun hnode => List.mem_range.mpr (List.getElem?_eq_some_iff.mp hnode).1
  refine ⟨fun node hnode range hrange => ?_, fun i node range hnode hrange => ?_,
    fun node hnode range hrange => ?_, ?_⟩
  · obtain ⟨i, hi⟩ := List.mem_iff_getElem?.mp hnode
    exact (h i (hplace hi) node hi range hrange).2.1
  · exact (h i (hplace hnode) node hnode range hrange).1
  · obtain ⟨i, hi⟩ := List.mem_iff_getElem?.mp hnode
    exact (h i (hplace hi) node hi range hrange).2.2.1
  · intro i j node node' range range' c hi hj hrange hrange' hc hc'
    exact (h i (hplace hi) node hi range hrange).2.2.2 j (hplace hj) node' hj range' hrange' c hc
      hc'

theorem ChildRange.mem_places {range : ChildRange} {c : Nat} :
    c ∈ range.places ↔ range.start ≤ c ∧ c < range.stop := by
  rw [places, List.mem_range'_1]
  omega

theorem FlatCostNode.mem_visited {node : FlatCostNode} {c : Nat} (hc : c ∈ node.visited)
    (hnonempty : ∀ range, node.children = some range → range.start < range.stop) :
    ∃ range, node.children = some range ∧ c ∈ range.places := by
  cases node with
  | leaf slot => exact (List.not_mem_nil hc).elim
  | sum range => exact ⟨range, rfl, hc⟩
  | max overlap range => exact ⟨range, rfl, hc⟩
  | parallel overlap range => exact ⟨range, rfl, hc⟩
  | scale n range =>
    obtain rfl := List.mem_singleton.mp hc
    exact ⟨range, rfl, ChildRange.mem_places.mpr ⟨le_refl _, hnonempty range rfl⟩⟩

theorem FlatCostNode.nodup_visited (node : FlatCostNode) : node.visited.Nodup := by
  cases node with
  | leaf slot => exact List.nodup_nil
  | scale n range => exact List.nodup_singleton _
  | sum range => exact List.nodup_range'
  | max overlap range => exact List.nodup_range'
  | parallel overlap range => exact List.nodup_range'

/-- The places a fold goes down to from a place. -/
def childPlaces (m : List FlatCostNode) (i : Nat) : List Nat :=
  match m[i]? with
  | some node => node.visited
  | none => []

theorem childPlaces_eq {m : List FlatCostNode} {i : Nat} {node : FlatCostNode}
    (h : m[i]? = some node) : childPlaces m i = node.visited := by
  rw [childPlaces, h]

theorem mem_childPlaces {m : List FlatCostNode} {i c : Nat} (hm : FlatTree m)
    (h : c ∈ childPlaces m i) :
    ∃ node range, m[i]? = some node ∧ node.children = some range ∧ c ∈ range.places := by
  rcases hnode : m[i]? with _ | node
  · rw [childPlaces, hnode] at h
    exact (List.not_mem_nil h).elim
  · rw [childPlaces_eq hnode] at h
    obtain ⟨range, hrange, hc⟩ :=
      FlatCostNode.mem_visited h (hm.nonempty node (List.mem_of_getElem? hnode))
    exact ⟨node, range, rfl, hrange, hc⟩

theorem FlatTree.tree {m : List FlatCostNode} (hm : FlatTree m) :
    ForwardTree.Tree (childPlaces m) m.length where
  behind i c hc := by
    obtain ⟨node, range, hnode, hrange, hplace⟩ := mem_childPlaces hm hc
    exact (hm.behind i node range hnode hrange).trans_le (ChildRange.mem_places.mp hplace).1
  within i c hc := by
    obtain ⟨node, range, hnode, hrange, hplace⟩ := mem_childPlaces hm hc
    exact (ChildRange.mem_places.mp hplace).2.trans_le
      (hm.within node (List.mem_of_getElem? hnode) range hrange)
  nodup i := by
    rcases hnode : m[i]? with _ | node
    · rw [childPlaces, hnode]
      exact List.nodup_nil
    · rw [childPlaces_eq hnode]
      exact node.nodup_visited
  unique i j c hi hj := by
    obtain ⟨node, range, hnode, hrange, hplace⟩ := mem_childPlaces hm hi
    obtain ⟨node', range', hnode', hrange', hplace'⟩ := mem_childPlaces hm hj
    exact hm.apart i j node node' range range' c hnode hnode' hrange hrange' hplace hplace'

namespace BalancedFold

variable {R : Nat}

/-! ## The value of a subtree -/

/-- A node's value from its children's, in their order. -/
def combine (leafValue : Nat → Rungs R) (values : List (Rungs R)) : FlatCostNode → Rungs R
  | .leaf slot => leafValue slot
  | .sum _ => values.foldl add 0
  | .scale n _ => fun r => values.headD 0 r * n
  | .max overlap _ => fun r =>
    values.foldl add 0 r / ((Max.max values.length 1 : Nat) * overlapDivisor overlap)
  | .parallel overlap _ => fun r => values.foldl larger 0 r / overlapDivisor overlap

/-- The value of the subtree at a place. -/
def subtreeValue (m : List FlatCostNode) (leafValue : Nat → Rungs R) : Nat → Rungs R :=
  ForwardTree.value (childPlaces m) m.length fun i values =>
    match m[i]? with
    | some node => combine leafValue values node
    | none => 0

theorem subtreeValue_eq {m : List FlatCostNode} {leafValue : Nat → Rungs R} {i : Nat}
    {node : FlatCostNode} (hm : FlatTree m) (h : m[i]? = some node) :
    subtreeValue m leafValue i =
      combine leafValue (node.visited.map (subtreeValue m leafValue)) node := by
  rw [subtreeValue, ForwardTree.value_eq hm.tree.toForward _ (List.getElem?_eq_some_iff.mp h).1, h,
    childPlaces_eq h]

/-- What rolling up does to the buffer: an entry is kept or made right, those at certain
places are right. -/
structure Settled (value : Nat → Rungs R) (places : Nat → Prop) (before after : List (Rungs R)) :
    Prop where
  length : after.length = before.length
  kept : ∀ j, after[j]? = before[j]? ∨ after[j]? = some (value j)
  right : ∀ j, places j → after[j]? = some (value j)

theorem Settled.refl (value : Nat → Rungs R) (scratch : List (Rungs R)) :
    Settled value (fun _ => False) scratch scratch where
  length := rfl
  kept _ := .inl rfl
  right _ h := h.elim

theorem Settled.trans {value : Nat → Rungs R} {p q : Nat → Prop} {a b c : List (Rungs R)}
    (h : Settled value p a b) (h' : Settled value q b c) :
    Settled value (fun j => p j ∨ q j) a c where
  length := h'.length.trans h.length
  kept j := by
    rcases h'.kept j with heq | heq
    · rw [heq]
      exact h.kept j
    · exact .inr heq
  right j hj := by
    rcases hj with hj | hj
    · rcases h'.kept j with heq | heq
      · exact heq.trans (h.right j hj)
      · exact heq
    · exact h'.right j hj

theorem Settled.weaken {value : Nat → Rungs R} {p q : Nat → Prop} {a b : List (Rungs R)}
    (h : Settled value p a b) (himp : ∀ j, q j → p j) : Settled value q a b where
  length := h.length
  kept := h.kept
  right j hj := h.right j (himp j hj)

theorem Settled.set {value : Nat → Rungs R} {scratch : List (Rungs R)} {i : Nat}
    (hi : i < scratch.length) : Settled value (i = ·) scratch (scratch.set i (value i)) where
  length := List.length_set
  kept j := by
    rcases eq_or_ne i j with rfl | hne
    · exact .inr (List.getElem?_set_self hi)
    · exact .inl (List.getElem?_set_ne hne)
  right j hj := by
    obtain rfl := hj
    exact List.getElem?_set_self hi

theorem accumulate_spec {value : Nat → Rungs R} {below : Nat → Nat → Prop} {size : Nat}
    {evaluate : Nat → List (Rungs R) → Option (Rungs R × List (Rungs R))}
    (step : Rungs R → Rungs R → Rungs R) {children : List Nat}
    (h : ∀ c ∈ children, ∀ scratch, size ≤ scratch.length →
      ∃ after, evaluate c scratch = some (value c, after) ∧ Settled value (below c) scratch after)
    (acc : Rungs R) {scratch : List (Rungs R)} (hsize : size ≤ scratch.length) :
    ∃ after, accumulate evaluate step children acc scratch =
        some ((children.map value).foldl step acc, after) ∧
      Settled value (fun j => ∃ c ∈ children, below c j) scratch after := by
  induction children generalizing acc scratch with
  | nil => exact ⟨scratch, rfl, (Settled.refl value scratch).weaken (by simp)⟩
  | cons c children ih =>
    obtain ⟨middle, hmiddle, hsettled⟩ := h c List.mem_cons_self scratch hsize
    obtain ⟨after, hafter, hsettled'⟩ :=
      ih (fun c hc => h c (List.mem_cons_of_mem _ hc)) (step acc (value c))
        (hsize.trans_eq hsettled.length.symm)
    refine ⟨after, ?_, (hsettled.trans hsettled').weaken (by simp)⟩
    rw [accumulate, hmiddle]
    exact hafter

theorem evaluate_spec {m : List FlatCostNode} (hm : FlatTree m) (leafValue : Nat → Rungs R)
    {turns i : Nat} (hi : i < m.length) (hturns : m.length - i ≤ turns)
    {scratch : List (Rungs R)} (hsize : m.length ≤ scratch.length) :
    ∃ after, evaluate m leafValue turns i scratch = some (subtreeValue m leafValue i, after) ∧
      Settled (subtreeValue m leafValue) (ForwardTree.Below (childPlaces m) i) scratch after := by
  induction turns generalizing i scratch with
  | zero => exact absurd hturns (by omega)
  | succ turns ih =>
    obtain ⟨node, hnode⟩ : ∃ node, m[i]? = some node := ⟨_, List.getElem?_eq_getElem hi⟩
    have hvalue : subtreeValue m leafValue i = _ := subtreeValue_eq hm hnode
    -- children stand behind their parent, so their turns suffice
    have hchild : ∀ c ∈ node.visited, ∀ scratch : List (Rungs R), m.length ≤ scratch.length →
        ∃ after, evaluate m leafValue turns c scratch = some (subtreeValue m leafValue c, after) ∧
          Settled (subtreeValue m leafValue) (ForwardTree.Below (childPlaces m) c) scratch
            after := by
      intro c hc scratch hsize
      rw [← childPlaces_eq hnode] at hc
      have hbehind := hm.tree.behind i c hc
      exact ih (hm.tree.within i c hc) (by omega) hsize
    have hnodeSpec : ∃ after, evaluateNode leafValue (evaluate m leafValue turns) scratch node =
          some (subtreeValue m leafValue i, after) ∧
        Settled (subtreeValue m leafValue)
          (fun j => ∃ c ∈ node.visited, ForwardTree.Below (childPlaces m) c j) scratch after := by
      cases node with
      | leaf slot =>
        refine ⟨scratch, ?_, (Settled.refl _ scratch).weaken (by simp [FlatCostNode.visited])⟩
        rw [evaluateNode, hvalue, combine]
      | sum range =>
        obtain ⟨after, hafter, hsettled⟩ := accumulate_spec add hchild 0 hsize
        refine ⟨after, hafter.trans ?_, hsettled⟩
        rw [hvalue, combine]
      | scale n range =>
        obtain ⟨after, hafter, hsettled⟩ := hchild _ List.mem_cons_self scratch hsize
        refine ⟨after, ?_, hsettled.weaken (by simp [FlatCostNode.visited])⟩
        rw [evaluateNode, hafter, hvalue, combine]
        rfl
      | max overlap range =>
        obtain ⟨after, hafter, hsettled⟩ := accumulate_spec add hchild 0 hsize
        refine ⟨after, ?_, hsettled⟩
        rw [evaluateNode, show range.places = (FlatCostNode.max overlap range).visited from rfl,
          hafter, hvalue, combine, List.length_map]
        rfl
      | parallel overlap range =>
        obtain ⟨after, hafter, hsettled⟩ := accumulate_spec larger hchild 0 hsize
        refine ⟨after, ?_, hsettled⟩
        rw [evaluateNode,
          show range.places = (FlatCostNode.parallel overlap range).visited from rfl,
          hafter, hvalue, combine]
        rfl
    obtain ⟨after, hafter, hsettled⟩ := hnodeSpec
    have hlength : i < after.length := by
      have := hsettled.length
      omega
    refine ⟨after.set i (subtreeValue m leafValue i), ?_,
      (hsettled.trans (Settled.set hlength)).weaken fun j hj => ?_⟩
    · rw [evaluate, hnode, Option.bind_eq_bind, Option.bind_some, hafter]
      rfl
    · rcases ForwardTree.below_iff.mp hj with heq | ⟨c, hc, hbelow⟩
      · exact .inr heq
      · rw [childPlaces_eq hnode] at hc
        exact .inl ⟨c, hc, hbelow⟩

end BalancedFold

end ServingSim
