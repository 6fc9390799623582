import ServingSim.Timing.CostTree

/-
  The lowering of a cost tree puts the tree into the array.

  The breadth-first loop reserves places for the children of a node before it
  knows what goes there, so its invariant speaks about every completion of the
  arrays: whatever the places still open are filled with, if each holds the tree
  node that waits for it, then place 0 holds the root. When the queue is empty no
  place is open and the arrays are their own completion.
-/

namespace ServingSim

open CostNode

section lowered

variable (F : List FlatCostNode) (L : List (Option String))

mutual

/-- Place `i` and the places behind it hold a tree node; `outer` is the outermost
label met on the way to it. -/
def Lowered (i : Nat) (outer : Option String) : CostNode → Prop
  | .leaf slot => L[i]? = some outer ∧ F[i]? = some (.leaf slot)
  | .sum children => L[i]? = some outer ∧
      ∃ start, F[i]? = some (.sum ⟨start, start + children.length⟩) ∧ LoweredAll start children
  | .max overlap children => L[i]? = some outer ∧
      ∃ start, F[i]? = some (.max overlap ⟨start, start + children.length⟩) ∧
        LoweredAll start children
  | .parallel overlap children => L[i]? = some outer ∧
      ∃ start, F[i]? = some (.parallel overlap ⟨start, start + children.length⟩) ∧
        LoweredAll start children
  | .scale n child => L[i]? = some outer ∧
      ∃ start, F[i]? = some (.scale n ⟨start, start + 1⟩) ∧ Lowered start none child
  | .labeled label child => Lowered i (outer.or (some label)) child

/-- The places from `start` on hold the children, one each. -/
def LoweredAll (start : Nat) : List CostNode → Prop
  | [] => True
  | child :: children => Lowered start none child ∧ LoweredAll (start + 1) children

end

variable {F L}

theorem loweredAll_of_zipIdx {children : List CostNode} {start : Nat}
    (h : ∀ e ∈ children.zipIdx start, Lowered F L e.2 none e.1) :
    LoweredAll F L start children := by
  induction children generalizing start with
  | nil => trivial
  | cons child children ih =>
    rw [List.zipIdx_cons] at h
    exact ⟨h _ List.mem_cons_self, ih fun e he => h e (List.mem_cons_of_mem _ he)⟩

theorem mem_leafSlotsAll {child : CostNode} {children : List CostNode} {slot : Nat}
    (hchild : child ∈ children) (h : slot ∈ child.leafSlots) : slot ∈ leafSlotsAll children := by
  induction children with
  | nil => cases hchild
  | cons first others ih =>
    rw [leafSlotsAll, List.mem_append]
    rcases List.mem_cons.mp hchild with rfl | hchild
    · exact .inl h
    · exact .inr (ih hchild)

end lowered

/-! ## The places of a child range -/

/-- The range of a composite lies behind it and inside the array. -/
def RangesForward (nodes : List (Option FlatCostNode)) : Prop :=
  ∀ (i : Nat) (node : FlatCostNode) (range : ChildRange), nodes[i]? = some (some node) →
    node.children = some range → i < range.start ∧ range.start ≤ range.stop ∧
        range.stop ≤ nodes.length

/-- No place is in two ranges. -/
def RangesDisjoint (nodes : List (Option FlatCostNode)) : Prop :=
  ∀ (i j : Nat) (node node' : FlatCostNode) (range range' : ChildRange), i ≠ j →
    nodes[i]? = some (some node) → nodes[j]? = some (some node') →
    node.children = some range → node'.children = some range' →
    range.stop ≤ range'.start ∨ range'.stop ≤ range.start

/-! ## The loop's invariant -/

namespace Lowering

/-- `F` and `L` fill the open places with the tree nodes that wait for them. -/
structure Completes (lowering : Lowering) (F : List FlatCostNode) (L : List (Option String)) :
    Prop where
  nodes : ∀ (i : Nat) (node : FlatCostNode), lowering.out[i]? = some (some node) → F[i]? = some node
  labels : ∀ (i : Nat) (node : FlatCostNode), lowering.out[i]? = some (some node) →
    L[i]? = lowering.labels[i]?
  queued : ∀ e ∈ lowering.queue, Lowered F L e.2 lowering.labels[e.2]?.join e.1

structure Inv (root : CostNode) (lowering : Lowering) : Prop where
  length : lowering.labels.length = lowering.out.length
  /-- A queued node waits for a place that is open. -/
  reserved : ∀ e ∈ lowering.queue, lowering.out[e.2]? = some none
  distinct : (lowering.queue.map Prod.snd).Nodup
  /-- An open place has a node waiting for it. -/
  awaited : ∀ i : Nat, lowering.out[i]? = some none → i ∈ lowering.queue.map Prod.snd
  forward : RangesForward lowering.out
  disjoint : RangesDisjoint lowering.out
  slots : ∀ i slot : Nat, lowering.out[i]? = some (some (.leaf slot)) → slot ∈ root.leafSlots
  slotsQueued : ∀ e ∈ lowering.queue, ∀ slot ∈ e.1.leafSlots, slot ∈ root.leafSlots
  lowers : ∀ F L, lowering.Completes F L → Lowered F L 0 none root

theorem inv_start (root : CostNode) : Inv root ⟨[none], [none], [(root, 0)]⟩ where
  length := rfl
  reserved := by simp
  distinct := by simp
  awaited := fun i h => by
    cases i with
    | zero => simp
    | succ i => simp at h
  forward := fun i node range h _ => by
    cases i with
    | zero => simp at h
    | succ i => simp at h
  disjoint := fun i j node node' range range' _ h _ _ _ => by
    cases i with
    | zero => simp at h
    | succ i => simp at h
  slots := fun i slot h => by
    cases i with
    | zero => simp at h
    | succ i => simp at h
  slotsQueued := by simp
  lowers := fun F L h => h.queued (root, 0) (by simp)

section turn

variable {root node : CostNode} {lowering : Lowering} {idx : Nat} {rest : List (CostNode × Nat)}

theorem getElem?_reserveFill (out : List (Option FlatCostNode)) (children : List CostNode)
    (flat : FlatCostNode) (h : idx < out.length) (i : Nat) :
    ((out ++ children.map fun _ => none).set idx (some flat))[i]? =
      if i = idx then some (some flat)
      else if i < out.length then out[i]?
      else if i < out.length + children.length then some none else none := by
  by_cases hi : i = idx
  · subst hi
    rw [if_pos rfl, List.getElem?_set_self (by simp; omega)]
  · rw [if_neg hi, List.getElem?_set_ne (Ne.symm hi)]
    split
    · rename_i hlt
      exact List.getElem?_append_left hlt
    · rename_i hge
      rw [List.getElem?_append_right (by omega), List.getElem?_map]
      split
      · rename_i hlt
        rw [List.getElem?_eq_getElem (by omega)]
        rfl
      · rw [List.getElem?_eq_none (by omega)]
        rfl

variable {flat : FlatCostNode}

theorem filled_reserveFill {out : List (Option FlatCostNode)} {children : List CostNode}
    (h : idx < out.length) {i : Nat} {n : FlatCostNode}
    (hi : ((out ++ children.map fun _ => none).set idx (some flat))[i]? = some (some n)) :
    i = idx ∧ n = flat ∨ i ≠ idx ∧ i < out.length ∧ out[i]? = some (some n) := by
  rw [getElem?_reserveFill out children flat h] at hi
  split at hi
  · rename_i heq
    injections
    exact .inl ⟨heq, by simp_all⟩
  · rename_i hne
    split at hi
    · rename_i hlt
      exact .inr ⟨hne, hlt, hi⟩
    · split at hi <;> simp at hi

theorem resize_grow {α : Type} (l : List α) {len : Nat} (fill : α) (h : l.length ≤ len) :
    resize l len fill = l ++ List.replicate (len - l.length) fill := by
  rw [resize, List.take_of_length_le]
  simp
  omega

theorem rangesForward_reserveFill {out : List (Option FlatCostNode)} (h : RangesForward out)
    (hidx : idx < out.length) {children : List CostNode}
    (hrange : ∀ range : ChildRange, flat.children = some range →
      range = ⟨out.length, out.length + children.length⟩) :
    RangesForward ((out ++ children.map fun _ => none).set idx (some flat)) := by
  intro i n range hi hn
  rw [List.length_set, List.length_append, List.length_map]
  rcases filled_reserveFill hidx hi with ⟨rfl, rfl⟩ | ⟨-, -, hold⟩
  · rw [hrange range hn]
    exact ⟨hidx, by simp, by simp⟩
  · obtain ⟨hstart, hstop, hend⟩ := h i n range hold hn
    exact ⟨hstart, hstop, by omega⟩

theorem rangesDisjoint_reserveFill {out : List (Option FlatCostNode)} (h : RangesDisjoint out)
    (hforward : RangesForward out) (hidx : idx < out.length) {children : List CostNode}
    (hrange : ∀ range : ChildRange, flat.children = some range →
      range = ⟨out.length, out.length + children.length⟩) :
    RangesDisjoint ((out ++ children.map fun _ => none).set idx (some flat)) := by
  intro i j n n' range range' hij hi hj hn hn'
  rcases filled_reserveFill hidx hi with ⟨rfl, rfl⟩ | ⟨-, -, hold⟩ <;>
    rcases filled_reserveFill hidx hj with ⟨rfl, rfl⟩ | ⟨-, -, hold'⟩
  · exact absurd rfl hij
  · rw [hrange range hn]
    exact .inr (hforward j n' range' hold' hn').2.2
  · rw [hrange range' hn']
    exact .inl (hforward i n range hold hn).2.2
  · exact h i j n n' range range' hij hold hold' hn hn'

theorem Inv.rest_open (h : Inv root lowering) (hqueue : lowering.queue = (node, idx) :: rest) :
    ∀ e ∈ rest, lowering.out[e.2]? = some none ∧ e.2 < lowering.out.length ∧ e.2 ≠ idx := by
  intro e he
  have hplace := h.reserved e (by rw [hqueue]; exact List.mem_cons_of_mem _ he)
  have hdistinct := h.distinct
  rw [hqueue, List.map_cons, List.nodup_cons] at hdistinct
  refine ⟨hplace, (List.getElem?_eq_some_iff.mp hplace).1, fun heq => hdistinct.1 ?_⟩
  exact List.mem_map.mpr ⟨e, he, heq⟩

theorem reserved_block {out : List (Option FlatCostNode)} {children : List CostNode} :
    ∀ e ∈ children.zipIdx out.length, out.length ≤ e.2 ∧ e.2 < out.length + children.length := by
  intro e he
  have hlt := List.snd_lt_add_of_mem_zipIdx he
  exact ⟨List.le_snd_of_mem_zipIdx he, by omega⟩

theorem Inv.labels_reserved (h : Inv root lowering) (children : List CostNode) :
    resize lowering.labels (lowering.out ++ children.map fun _ => none).length none =
      lowering.labels ++ List.replicate children.length none := by
  rw [resize_grow _ _ (by rw [h.length]; simp)]
  simp [h.length]

theorem Inv.completes_reserveFill (h : Inv root lowering)
    (hqueue : lowering.queue = (node, idx) :: rest) {children : List CostNode}
    {F : List FlatCostNode} {L : List (Option String)}
    (hnode : ∀ outer : Option String, L[idx]? = some outer → F[idx]? = some flat →
      LoweredAll F L lowering.out.length children → Lowered F L idx outer node)
    (hcompletes : ((({ lowering with queue := rest } : Lowering).reserve children).1.fill idx
      flat).Completes F L) : lowering.Completes F L := by
  obtain ⟨hnodes, hlabel, hqueued⟩ := hcompletes
  have hopen : lowering.out[idx]? = some none :=
    h.reserved (node, idx) (by rw [hqueue]; exact List.mem_cons_self)
  have hidx : idx < lowering.out.length := (List.getElem?_eq_some_iff.mp hopen).1
  have hout : ∀ (i : Nat) (n : FlatCostNode), lowering.out[i]? = some (some n) →
      i < lowering.out.length ∧
        ((lowering.out ++ children.map fun _ => none).set idx (some flat))[i]? = some (some n) := by
    intro i n hi
    have hlt := (List.getElem?_eq_some_iff.mp hi).1
    have hne : i ≠ idx := by
      rintro rfl
      rw [hopen] at hi
      cases Option.some.inj hi
    rw [getElem?_reserveFill lowering.out children flat hidx, if_neg hne, if_pos hlt]
    exact ⟨hlt, hi⟩
  have hself : ((lowering.out ++ children.map fun _ => none).set idx (some flat))[idx]? =
      some (some flat) := by
    rw [getElem?_reserveFill lowering.out children flat hidx, if_pos rfl]
  replace hlabel : ∀ (i : Nat) (n : FlatCostNode),
      ((lowering.out ++ children.map fun _ => none).set idx (some flat))[i]? = some (some n) →
        L[i]? = (lowering.labels ++ List.replicate children.length none)[i]? := fun i n hi =>
    (hlabel i n hi).trans (congrArg (·[i]?) (h.labels_reserved children))
  replace hqueued : ∀ e ∈ rest ++ children.zipIdx lowering.out.length, Lowered F L e.2
      (lowering.labels ++ List.replicate children.length none)[e.2]?.join e.1 := fun e he =>
    h.labels_reserved children ▸ hqueued e he
  have hkept : ∀ i : Nat, i < lowering.out.length →
      (lowering.labels ++ List.replicate children.length none)[i]? = lowering.labels[i]? :=
    fun i hlt => List.getElem?_append_left (by rw [h.length]; exact hlt)
  refine ⟨fun i n hi => hnodes i n (hout i n hi).2, fun i n hi => ?_, fun e he => ?_⟩
  · obtain ⟨hlt, hfilled⟩ := hout i n hi
    rw [hlabel i n hfilled, hkept i hlt]
  · rw [hqueue, List.mem_cons] at he
    rcases he with rfl | he
    · -- the node of this turn: its children wait in the block
      refine hnode _ ?_ (hnodes idx flat hself) (loweredAll_of_zipIdx fun e he => ?_)
      · rw [hlabel idx flat hself, hkept idx hidx,
          List.getElem?_eq_getElem (by rw [h.length]; exact hidx)]
        rfl
      · have hchild := hqueued e (List.mem_append_right _ he)
        obtain ⟨hle, hlt⟩ := reserved_block e he
        rwa [List.getElem?_append_right (by rw [h.length]; exact hle),
          List.getElem?_replicate_of_lt (by rw [h.length]; omega)] at hchild
    · have hwaits := hqueued e (List.mem_append_left _ he)
      rwa [hkept e.2 (h.rest_open hqueue e he).2.1] at hwaits

theorem Inv.reserveFill (h : Inv root lowering) (hqueue : lowering.queue = (node, idx) :: rest)
    (children : List CostNode) (flat : FlatCostNode)
    (hrange : ∀ range : ChildRange, flat.children = some range →
      range = ⟨lowering.out.length, lowering.out.length + children.length⟩)
    (hleaf : ∀ slot : Nat, flat = .leaf slot → slot ∈ root.leafSlots)
    (hslots : ∀ slot ∈ leafSlotsAll children, slot ∈ root.leafSlots)
    (hnode : ∀ (F : List FlatCostNode) (L : List (Option String)) (outer : Option String),
      L[idx]? = some outer → F[idx]? = some flat →
      LoweredAll F L lowering.out.length children → Lowered F L idx outer node) :
    Inv root ((({ lowering with queue := rest } : Lowering).reserve children).1.fill idx flat) := by
  have hopen : lowering.out[idx]? = some none :=
    h.reserved (node, idx) (by rw [hqueue]; exact List.mem_cons_self)
  have hidx : idx < lowering.out.length := (List.getElem?_eq_some_iff.mp hopen).1
  have hdistinct := h.distinct
  rw [hqueue, List.map_cons, List.nodup_cons] at hdistinct
  constructor
  case length =>
    show (resize lowering.labels (lowering.out ++ children.map fun _ => none).length none).length =
      ((lowering.out ++ children.map fun _ => none).set idx (some flat)).length
    rw [h.labels_reserved]
    simp [h.length]
  case reserved =>
    intro e he
    show ((lowering.out ++ children.map fun _ => none).set idx (some flat))[e.2]? = some none
    rw [getElem?_reserveFill lowering.out children flat hidx]
    rcases List.mem_append.mp he with he | he
    · obtain ⟨hplace, hlt, hne⟩ := h.rest_open hqueue e he
      rw [if_neg hne, if_pos hlt, hplace]
    · obtain ⟨hle, hlt⟩ : lowering.out.length ≤ e.2 ∧ _ := reserved_block e he
      rw [if_neg (by omega), if_neg (by omega), if_pos hlt]
  case distinct =>
    show ((rest ++ children.zipIdx lowering.out.length).map Prod.snd).Nodup
    rw [List.map_append, List.zipIdx_map_snd, List.nodup_append]
    refine ⟨hdistinct.2, List.nodup_range', ?_⟩
    intro a ha b hb heq
    obtain ⟨e, he, rfl⟩ := List.mem_map.mp ha
    have hlt := (h.rest_open hqueue e he).2.1
    rw [List.mem_range'_1] at hb
    omega
  case awaited =>
    intro i hi
    replace hi : ((lowering.out ++ children.map fun _ => none).set idx (some flat))[i]? =
      some none := hi
    show i ∈ (rest ++ children.zipIdx lowering.out.length).map Prod.snd
    rw [getElem?_reserveFill lowering.out children flat hidx] at hi
    rw [List.map_append, List.zipIdx_map_snd, List.mem_append, List.mem_range'_1]
    split at hi
    · simp at hi
    · rename_i hne
      split at hi
      -- an entry still open is waited for where it was, or is one of the new block
      · have hwaits := h.awaited i hi
        rw [hqueue, List.map_cons, List.mem_cons] at hwaits
        exact .inl (hwaits.resolve_left hne)
      · split at hi
        · exact .inr (by omega)
        · simp at hi
  case forward => exact rangesForward_reserveFill h.forward hidx hrange
  case disjoint => exact rangesDisjoint_reserveFill h.disjoint h.forward hidx hrange
  case slots =>
    intro i slot hi
    rcases filled_reserveFill hidx hi with ⟨-, hflat⟩ | ⟨-, -, hi⟩
    · exact hleaf slot hflat.symm
    · exact h.slots i slot hi
  case slotsQueued =>
    intro e he slot hslot
    rcases List.mem_append.mp he with he | he
    · exact h.slotsQueued e (by rw [hqueue]; exact List.mem_cons_of_mem _ he) slot hslot
    · exact hslots slot (mem_leafSlotsAll (List.fst_mem_of_mem_zipIdx he) hslot)
  case lowers =>
    exact fun F L hcompletes =>
      h.lowers F L (h.completes_reserveFill hqueue (hnode F L) hcompletes)

theorem Inv.splice {label : String} {child : CostNode} (h : Inv root lowering)
    (hqueue : lowering.queue = (.labeled label child, idx) :: rest) :
    Inv root (({ lowering with queue := rest } : Lowering).lower idx (.labeled label child)) := by
  have hopen : lowering.out[idx]? = some none :=
    h.reserved (.labeled label child, idx) (by rw [hqueue]; exact List.mem_cons_self)
  have hidx : idx < lowering.labels.length := by
    rw [h.length]
    exact (List.getElem?_eq_some_iff.mp hopen).1
  have hdistinct := h.distinct
  rw [hqueue, List.map_cons, List.nodup_cons] at hdistinct
  have hrest : ∀ e ∈ rest, e ∈ lowering.queue ∧ e.2 ≠ idx := by
    intro e he
    refine ⟨by rw [hqueue]; exact List.mem_cons_of_mem _ he, fun heq => hdistinct.1 ?_⟩
    exact List.mem_map.mpr ⟨e, he, heq⟩
  set labels := if lowering.labels[idx]?.join = none then lowering.labels.set idx (some label)
    else lowering.labels with hlabels
  have hne : ∀ i : Nat, i ≠ idx → labels[i]? = lowering.labels[i]? := by
    intro i hi
    rw [hlabels]
    split
    · exact List.getElem?_set_ne (Ne.symm hi)
    · rfl
  have hself : labels[idx]?.join = lowering.labels[idx]?.join.or (some label) := by
    rw [hlabels]
    split
    · rename_i hnone
      rw [hnone, List.getElem?_set_self hidx]
      rfl
    · rename_i hsome
      obtain ⟨outer, houter⟩ := Option.ne_none_iff_exists'.mp hsome
      rw [houter]
      rfl
  -- the child waits for the same entry, under the label given there first
  constructor
  case length =>
    show labels.length = lowering.out.length
    rw [← h.length, hlabels]
    split
    · exact List.length_set
    · rfl
  case reserved =>
    intro e he
    rcases List.mem_append.mp he with he | he
    · exact h.reserved e (hrest e he).1
    · rw [List.mem_singleton.mp he]
      exact hopen
  case distinct =>
    show ((rest ++ [(child, idx)]).map Prod.snd).Nodup
    rw [List.map_append, List.nodup_append]
    refine ⟨hdistinct.2, by simp, ?_⟩
    intro a ha b hb heq
    obtain rfl : b = idx := by simpa using hb
    exact hdistinct.1 (heq ▸ ha)
  case awaited =>
    intro i hi
    have hwaits := h.awaited i hi
    rw [hqueue, List.map_cons, List.mem_cons] at hwaits
    show i ∈ (rest ++ [(child, idx)]).map Prod.snd
    rw [List.map_append, List.mem_append]
    rcases hwaits with rfl | hwaits
    · exact .inr (by simp)
    · exact .inl hwaits
  case forward => exact h.forward
  case disjoint => exact h.disjoint
  case slots => exact h.slots
  case slotsQueued =>
    intro e he slot hslot
    rcases List.mem_append.mp he with he | he
    · exact h.slotsQueued e (hrest e he).1 slot hslot
    · rw [List.mem_singleton.mp he] at hslot
      refine h.slotsQueued (.labeled label child, idx) ?_ slot hslot
      rw [hqueue]
      exact List.mem_cons_self
  case lowers =>
    intro F L hcompletes
    obtain ⟨hnodes, hlabel, hqueued⟩ := hcompletes
    refine h.lowers F L ⟨hnodes, ?_, ?_⟩
    · intro i n hi
      have hi' : i ≠ idx := by
        rintro rfl
        rw [hopen] at hi
        simp at hi
      rw [← hne i hi']
      exact hlabel i n hi
    · intro e he
      rw [hqueue, List.mem_cons] at he
      rcases he with rfl | he
      · show Lowered F L idx (lowering.labels[idx]?.join.or (some label)) child
        rw [← hself]
        exact hqueued (child, idx) (by simp [lower])
      · rw [← hne e.2 (hrest e he).2]
        exact hqueued e (List.mem_append_left _ he)

theorem reserve_nil (h : lowering.labels.length = lowering.out.length) :
    (({ lowering with queue := rest } : Lowering).reserve []).1 =
      { lowering with queue := rest } := by
  simp [reserve, resize, h]

theorem Inv.lower (h : Inv root lowering) (hqueue : lowering.queue = (node, idx) :: rest) :
    Inv root (({ lowering with queue := rest } : Lowering).lower idx node) := by
  have hslots : ∀ slot ∈ node.leafSlots, slot ∈ root.leafSlots :=
    h.slotsQueued (node, idx) (by rw [hqueue]; exact List.mem_cons_self)
  cases node with
  | leaf slot =>
    show Inv root (({ lowering with queue := rest } : Lowering).fill idx (.leaf slot))
    rw [← reserve_nil h.length]
    refine h.reserveFill hqueue [] (.leaf slot) nofun ?_ nofun ?_
    · intro slot' heq
      injection heq with heq
      exact heq ▸ hslots slot (by simp [leafSlots])
    · intro F L outer hlabel hflat _
      exact ⟨hlabel, hflat⟩
  | sum children =>
    refine h.reserveFill hqueue children (.sum _) ?_ nofun hslots ?_
    · rintro range ⟨⟩
      rfl
    · intro F L outer hlabel hflat hall
      exact ⟨hlabel, _, hflat, hall⟩
  | max overlap children =>
    refine h.reserveFill hqueue children (.max overlap _) ?_ nofun hslots ?_
    · rintro range ⟨⟩
      rfl
    · intro F L outer hlabel hflat hall
      exact ⟨hlabel, _, hflat, hall⟩
  | parallel overlap children =>
    refine h.reserveFill hqueue children (.parallel overlap _) ?_ nofun hslots ?_
    · rintro range ⟨⟩
      rfl
    · intro F L outer hlabel hflat hall
      exact ⟨hlabel, _, hflat, hall⟩
  | scale n child =>
    refine h.reserveFill hqueue [child] (.scale n _) ?_ nofun ?_ ?_
    · rintro range ⟨⟩
      rfl
    · intro slot hslot
      exact hslots slot (by simpa [leafSlots, leafSlotsAll] using hslot)
    · intro F L outer hlabel hflat hall
      exact ⟨hlabel, _, hflat, hall.1⟩
  | labeled label child => exact h.splice hqueue

end turn

/-! ## The whole loop -/

/-- Nodes left to lower. -/
def pending (lowering : Lowering) : Nat := sizes (lowering.queue.map Prod.fst)

theorem sizes_append (l l' : List CostNode) : sizes (l ++ l') = sizes l + sizes l' := by
  induction l with
  | nil => simp [sizes]
  | cons child children ih =>
    simp only [List.cons_append, sizes, ih]
    omega

theorem zipIdx_map_fst (l : List CostNode) (start : Nat) : (l.zipIdx start).map Prod.fst = l := by
  induction l generalizing start with
  | nil => rfl
  | cons child children ih => simp [List.zipIdx_cons, ih]

theorem pending_lower (lowering : Lowering) (idx : Nat) (node : CostNode) :
    (lowering.lower idx node).pending + 1 = lowering.pending + node.size := by
  cases node <;>
    simp only [pending, lower, reserve, fill, size, sizes, List.map_append, sizes_append,
      zipIdx_map_fst, List.map_cons, List.map_nil] <;> omega

theorem Inv.drain {root : CostNode} (fuel : Nat) (lowering : Lowering) (h : Inv root lowering)
    (hfuel : lowering.pending ≤ fuel) :
    Inv root (drain fuel lowering) ∧ (drain fuel lowering).queue = [] := by
  induction fuel generalizing lowering with
  | zero =>
    refine ⟨h, ?_⟩
    rcases hqueue : lowering.queue with _ | ⟨⟨node, idx⟩, rest⟩
    · exact hqueue
    · have hsize : 0 < node.size := by cases node <;> simp [size]
      simp only [pending, hqueue, List.map_cons, sizes] at hfuel
      omega
  | succ fuel ih =>
    rw [Lowering.drain]
    split
    · rename_i hqueue
      exact ⟨h, hqueue⟩
    · rename_i node idx rest hqueue
      refine ih _ (h.lower hqueue) ?_
      have hturn := pending_lower { lowering with queue := rest } idx node
      have hrest : lowering.pending = node.size + pending { lowering with queue := rest } := by
        simp only [pending, hqueue, List.map_cons, sizes]
      omega

end Lowering

/-! ## The lowered tree -/

theorem mapM_id_eq_some {α : Type} {l : List (Option α)} (h : ∀ i : Nat, l[i]? ≠ some none) :
    ∃ xs : List α, l.mapM id = some xs ∧ l = xs.map some := by
  induction l with
  | nil => exact ⟨[], rfl, rfl⟩
  | cons x l ih =>
    obtain ⟨xs, hxs, hl⟩ := ih fun i => h (i + 1)
    cases x with
    | none => exact absurd rfl (h 0)
    | some a => exact ⟨a :: xs, by simp [List.mapM_cons, hxs], by simp [hl]⟩

namespace CostNode

/-- What the lowering of a tree is: the tree from place 0 on, the labels beside the
nodes, the child ranges behind their parents and apart. -/
structure Flattened (root : CostNode) (nodes : List FlatCostNode)
    (labels : List (Option String)) : Prop where
  tree : Lowered nodes labels 0 none root
  length : labels.length = nodes.length
  forward : RangesForward (nodes.map some)
  disjoint : RangesDisjoint (nodes.map some)
  slots : ∀ i slot : Nat, nodes[i]? = some (.leaf slot) → slot ∈ root.leafSlots

theorem flattenLabeled_spec (root : CostNode) :
    ∃ (nodes : List FlatCostNode) (labels : List (Option String)),
      root.flattenLabeled = .ok (nodes, labels) ∧ Flattened root nodes labels := by
  obtain ⟨hinv, hqueue⟩ := Lowering.Inv.drain root.size ⟨[none], [none], [(root, 0)]⟩
    (Lowering.inv_start root) (by simp [Lowering.pending, sizes])
  set drained := Lowering.drain root.size ⟨[none], [none], [(root, 0)]⟩ with hdrained
  obtain ⟨nodes, hnodes, hout⟩ := mapM_id_eq_some fun i hi => by
    have := hinv.awaited i hi
    rw [hqueue] at this
    cases this
  refine ⟨nodes, drained.labels, ?_, ?_, ?_, hout ▸ hinv.forward, hout ▸ hinv.disjoint, ?_⟩
  · simp only [flattenLabeled, ← hdrained, hnodes]
  · refine hinv.lowers nodes drained.labels ⟨?_, fun _ _ _ => rfl, ?_⟩
    · intro i node hi
      rw [hout, List.getElem?_map] at hi
      simpa using hi
    · rw [hqueue]
      nofun
  · rw [hinv.length, hout, List.length_map]
  · intro i slot hi
    exact hinv.slots i slot (by rw [hout, List.getElem?_map, hi]; rfl)

end CostNode

end ServingSim
