import ServingSim.Analyzer.TracePlacement
import ServingSim.Analyzer.FoldAttribution
import ServingSim.Lib.SliceTrack

/-
  The nesting of a placed iteration.

  On the worker's own track the slices always nest, and in the collapsed view there is no
  other track. In the expanded view a fan-out's branches keep their natural length on their
  lanes, and every fan-out laid out on one track takes the same lanes: where a branch
  outlasts its wrapper, a later fan-out's branch can start on the lane before it is over.

  What is proved:
    1. `placement` — the packets of an iteration and their number, and that slices nest on
       every track when no branch starts on a lane that is still taken.
    2. `lanes_cross` — where one does, they need not.
-/

namespace ServingSim

namespace TracePlacement

open SliceTrack ForwardTree

/-- A manifest that can be laid out: a tree whose leaves have descriptors, and overlap
factors to divide by. -/
structure Placeable (m : Manifest) : Prop where
  tree : FlatTree m.nodes
  root : 0 < m.nodes.length
  described : ∀ slot, .leaf slot ∈ m.nodes → slot < m.slots.length
  overlap : ∀ overlap range, .max overlap range ∈ m.nodes ∨ .parallel overlap range ∈ m.nodes →
    0 < overlap

/-! ## Natural lengths -/

/-- The length a node is laid out to in the expanded view. -/
def laidTime (m : Manifest) (slotNs : List Int) : Nat → Int :=
  ForwardTree.value (childPlaces m.nodes) m.nodes.length fun i times =>
    match m.nodes[i]? with
    | some (.leaf slot) => slotNs.getD slot 0
    | some (.sum _) => times.sum
    | some (.scale n _) => n * times.headD 0
    | some (.max overlap _) | some (.parallel overlap _) =>
      roundNs ((times.foldl max 0 : Int) / overlap)
    | none => 0

/-- A branch on a lane. -/
structure LaneUse where
  lane : Track
  startNs : Int
  branch : Nat
  deriving DecidableEq

/-- The branches of items in sequence, each with its length. -/
def inSequence : List (Int × (Track → Int → List LaneUse)) → Track → Int → List LaneUse
  | [], _, _ => []
  | item :: items, track, t => item.2 track t ++ inSequence items track (t + item.1)

/-- The branches below a node in the expanded view, in the order they are laid out. -/
def laneUses (m : Manifest) (slotNs : List Int) : Nat → Track → Int → List LaneUse :=
  ForwardTree.value (childPlaces m.nodes) m.nodes.length fun i inner track t0 =>
    match m.nodes[i]? with
    | some (.sum range) => inSequence ((range.places.map (laidTime m slotNs)).zip inner) track t0
    | some (.scale n range) =>
      inSequence (List.replicate n (laidTime m slotNs range.start, inner.headD default)) track t0
    | some (.max _ range) | some (.parallel _ range) =>
      (range.places.zip inner).zipIdx.flatMap fun branch =>
        ⟨track ++ [branch.2], t0, branch.1.1⟩ :: branch.1.2 (track ++ [branch.2]) t0
    | _ => []

/-- On every lane a branch is over when the next one starts. -/
def LanesFree (m : Manifest) (slotNs : List Int) (track : Track) (t0 : Int) : Prop :=
  (laneUses m slotNs 0 track t0).Pairwise fun earlier later =>
    earlier.lane = later.lane → earlier.startNs + laidTime m slotNs earlier.branch ≤ later.startNs

instance (m : Manifest) (slotNs : List Int) (track : Track) (t0 : Int) :
    Decidable (LanesFree m slotNs track t0) :=
  inferInstanceAs (Decidable (List.Pairwise _ _))

section natural

variable {m : Manifest} (hm : FlatTree m.nodes) (slotNs : List Int) {i : Nat}
include hm

theorem laidTime_leaf {slot : Nat} (h : m.nodes[i]? = some (.leaf slot)) :
    laidTime m slotNs i = slotNs.getD slot 0 := by
  rw [laidTime, value_eq hm.tree.toForward _ (List.getElem?_eq_some_iff.mp h).1, h]

variable {range : ChildRange}

theorem laidTime_sum (h : m.nodes[i]? = some (.sum range)) :
    laidTime m slotNs i = (range.places.map (laidTime m slotNs)).sum := by
  rw [laidTime, value_eq hm.tree.toForward _ (List.getElem?_eq_some_iff.mp h).1, h,
    childPlaces_eq h]
  rfl

theorem laidTime_scale {n : Nat} (h : m.nodes[i]? = some (.scale n range)) :
    laidTime m slotNs i = n * laidTime m slotNs range.start := by
  rw [laidTime, value_eq hm.tree.toForward _ (List.getElem?_eq_some_iff.mp h).1, h,
    childPlaces_eq h]
  rfl

theorem laidTime_fanOut {overlap : ℚ}
    (h : m.nodes[i]? = some (.max overlap range) ∨ m.nodes[i]? = some (.parallel overlap range)) :
    laidTime m slotNs i =
      roundNs (((range.places.map (laidTime m slotNs)).foldl max 0 : Int) / overlap) := by
  rcases h with h | h
  · rw [laidTime, value_eq hm.tree.toForward _ (List.getElem?_eq_some_iff.mp h).1, h,
      childPlaces_eq h]
    rfl
  · rw [laidTime, value_eq hm.tree.toForward _ (List.getElem?_eq_some_iff.mp h).1, h,
      childPlaces_eq h]
    rfl

theorem laneUses_leaf {slot : Nat} (h : m.nodes[i]? = some (.leaf slot)) (track : Track)
    (t0 : Int) : laneUses m slotNs i track t0 = [] := by
  rw [laneUses, value_eq hm.tree.toForward _ (List.getElem?_eq_some_iff.mp h).1, h]

theorem laneUses_sum (h : m.nodes[i]? = some (.sum range)) (track : Track)
    (t0 : Int) : laneUses m slotNs i track t0 =
      inSequence (range.places.map fun c => (laidTime m slotNs c, laneUses m slotNs c)) track
        t0 := by
  rw [laneUses, value_eq hm.tree.toForward _ (List.getElem?_eq_some_iff.mp h).1, h,
    childPlaces_eq h]
  show inSequence ((range.places.map _).zip (range.places.map _)) track t0 = _
  rw [List.zip_map']

theorem laneUses_scale {n : Nat} (h : m.nodes[i]? = some (.scale n range))
    (track : Track) (t0 : Int) : laneUses m slotNs i track t0 =
      inSequence (List.replicate n (laidTime m slotNs range.start, laneUses m slotNs range.start))
        track t0 := by
  rw [laneUses, value_eq hm.tree.toForward _ (List.getElem?_eq_some_iff.mp h).1, h,
    childPlaces_eq h]
  rfl

theorem laneUses_fanOut {overlap : ℚ}
    (h : m.nodes[i]? = some (.max overlap range) ∨ m.nodes[i]? = some (.parallel overlap range))
    (track : Track) (t0 : Int) : laneUses m slotNs i track t0 =
      range.places.zipIdx.flatMap fun branch =>
        ⟨track ++ [branch.2], t0, branch.1⟩ ::
          laneUses m slotNs branch.1 (track ++ [branch.2]) t0 := by
  have hzip : ∀ (l : List Nat) (k : Nat),
      ((l.zip (l.map (laneUses m slotNs))).zipIdx k).flatMap (fun branch =>
          (⟨track ++ [branch.2], t0, branch.1.1⟩ : LaneUse) ::
            branch.1.2 (track ++ [branch.2]) t0) =
        (l.zipIdx k).flatMap fun branch =>
          ⟨track ++ [branch.2], t0, branch.1⟩ ::
            laneUses m slotNs branch.1 (track ++ [branch.2]) t0 := by
    intro l
    induction l with
    | nil => exact fun k => rfl
    | cons c l ih =>
      intro k
      rw [List.map_cons, List.zip_cons_cons, List.zipIdx_cons, List.flatMap_cons, ih,
        List.zipIdx_cons, List.flatMap_cons]
  rcases h with h | h
  · rw [laneUses, value_eq hm.tree.toForward _ (List.getElem?_eq_some_iff.mp h).1, h,
      childPlaces_eq h]
    exact hzip range.places 0
  · rw [laneUses, value_eq hm.tree.toForward _ (List.getElem?_eq_some_iff.mp h).1, h,
      childPlaces_eq h]
    exact hzip range.places 0

end natural

/-! ## Packets on a track -/

/-- The end of a slice that a packet puts on a track. -/
def Packet.edge (track : Track) : Packet → Option Edge
  | .descriptor _ _ => none
  | .sliceBegin other tsNs _ _ => if other = track then some ⟨true, tsNs⟩ else none
  | .sliceEnd other tsNs => if other = track then some ⟨false, tsNs⟩ else none

def edges (track : Track) (packets : List Packet) : List Edge :=
  packets.filterMap (Packet.edge track)

def Packet.begins : Packet → Bool
  | .sliceBegin _ _ _ _ => true
  | _ => false

def Packet.ends : Packet → Bool
  | .sliceEnd _ _ => true
  | _ => false

/-- So many slices are begun, and as many ended. -/
def Pairs (packets : List Packet) (pairs : Nat) : Prop :=
  packets.countP Packet.begins = pairs ∧ packets.countP Packet.ends = pairs

theorem edges_append (track : Track) (packets packets' : List Packet) :
    edges track (packets ++ packets') = edges track packets ++ edges track packets' :=
  List.filterMap_append

theorem Pairs.append {packets packets' : List Packet} {n n' : Nat} (h : Pairs packets n)
    (h' : Pairs packets' n') : Pairs (packets ++ packets') (n + n') := by
  rw [Pairs, List.countP_append, List.countP_append, h.1, h.2, h'.1, h'.2]
  exact ⟨rfl, rfl⟩

theorem Pairs.wrap {packets : List Packet} {n : Nat} (h : Pairs packets n) (track : Track)
    (t0 : Int) (name : String) (t : Int) :
    Pairs (Placer.wrap track t0 name packets t) (1 + n) := by
  simp only [Pairs, Placer.wrap, List.countP_cons, List.countP_append, List.countP_nil, h.1, h.2,
    Packet.begins, Packet.ends]
  simp [Nat.add_comm]

theorem edges_wrap (track : Track) (t0 : Int) (name : String) (packets : List Packet) (t : Int) :
    edges track (Placer.wrap track t0 name packets t) =
      ⟨true, t0⟩ :: (edges track packets ++ [⟨false, t⟩]) := by
  simp [edges, Placer.wrap, Packet.edge]

theorem edges_wrap_of_ne {track other : Track} (hne : other ≠ track) (t0 : Int) (name : String)
    (packets : List Packet) (t : Int) :
    edges other (Placer.wrap track t0 name packets t) = edges other packets := by
  simp [edges, Placer.wrap, Packet.edge, Ne.symm hne]

/-! ## The slices of a node -/

/-- What gets a slice: a node, or one repeat of a node. -/
inductive Item where
  | node (idx : Nat)
  | copy (child : Nat)

/-- A leaf has nothing inside, and an expanded fan-out has its branches on lanes. -/
def Bare (p : Placer) : Item → Prop
  | .node idx => (∃ slot, p.manifest.nodes[idx]? = some (.leaf slot)) ∨
    p.expanded = true ∧ ∃ overlap range, p.manifest.nodes[idx]? = some (.max overlap range) ∨
        p.manifest.nodes[idx]? = some (.parallel overlap range)
  | .copy _ => False

/-- What a slice holds on its own track. -/
inductive Holds (p : Placer) : Item → List Item → Prop
  | sum {idx : Nat} {range : ChildRange} (h : p.manifest.nodes[idx]? = some (.sum range)) :
    Holds p (.node idx) (range.places.map .node)
  | scale {idx n : Nat} {range : ChildRange}
    (h : p.manifest.nodes[idx]? = some (.scale n range)) :
    Holds p (.node idx) (List.replicate n (.copy range.start))
  | copy (child : Nat) : Holds p (.copy child) [.node child]
  | fanOut {idx crit : Nat} {overlap : ℚ} {range : ChildRange}
    (h : p.manifest.nodes[idx]? = some (.max overlap range) ∨
      p.manifest.nodes[idx]? = some (.parallel overlap range))
    (hcollapsed : p.expanded = false)
    (hcrit : criticalChild p.manifest range p.slotNs = some crit) :
    Holds p (.node idx) [.node crit]

/-- The block that a branch gets on its lane. -/
structure OnLane (p : Placer) (use : LaneUse) (block : Block) : Prop where
  lays : Lays (Bare p) (Holds p) [.node use.branch] block.start block.stop block.edges
  start : block.start = use.startNs
  stop : block.stop = use.startNs + laidTime p.manifest p.slotNs use.branch

/-- What packets laid out below a track put on the other tracks: on each lane a block for
every branch that uses it, in order. -/
structure LaidBeside (p : Placer) (track : Track) (uses : List LaneUse) (packets : List Packet) :
    Prop where
  within : ∀ use ∈ uses, track <+: use.lane ∧ use.lane ≠ track
  lanes : ∀ lane ≠ track, ∃ blocks : List Block, edges lane packets = blocks.flatMap Block.edges ∧
    List.Forall₂ (OnLane p) (uses.filter fun use => use.lane = lane) blocks

/-- Items laid out in sequence on a track, and their branches on lanes. -/
structure Laid (p : Placer) (track : Track) (items : List Item) (t t' : Int)
    (uses : List LaneUse) (packets : List Packet) : Prop
    extends LaidBeside p track uses packets where
  own : Lays (Bare p) (Holds p) items t t' (edges track packets)

section laid

variable {p : Placer} {track : Track} {items items' : List Item} {t t' t'' : Int}
  {uses uses' : List LaneUse} {packets packets' : List Packet}

theorem LaidBeside.nil (p : Placer) (track : Track) : LaidBeside p track [] [] where
  within _ h := absurd h List.not_mem_nil
  lanes _ _ := ⟨[], rfl, .nil⟩

theorem LaidBeside.append (h : LaidBeside p track uses packets)
    (h' : LaidBeside p track uses' packets') :
    LaidBeside p track (uses ++ uses') (packets ++ packets') where
  within use huse := (List.mem_append.mp huse).elim (h.within use) (h'.within use)
  lanes lane hne := by
    obtain ⟨blocks, hedges, hblocks⟩ := h.lanes lane hne
    obtain ⟨blocks', hedges', hblocks'⟩ := h'.lanes lane hne
    refine ⟨blocks ++ blocks', ?_, ?_⟩
    · rw [edges_append, hedges, hedges', List.flatMap_append]
    · rw [List.filter_append]
      exact List.rel_append hblocks hblocks'

theorem LaidBeside.wrap (h : LaidBeside p track uses packets) (t0 : Int) (name : String)
    (t : Int) : LaidBeside p track uses (Placer.wrap track t0 name packets t) where
  within := h.within
  lanes lane hne := by
    rw [edges_wrap_of_ne hne]
    exact h.lanes lane hne

theorem Laid.nil (p : Placer) (track : Track) (t : Int) : Laid p track [] t t [] [] :=
  { LaidBeside.nil p track with own := .nil t }

theorem Laid.append (h : Laid p track items t t' uses packets)
    (h' : Laid p track items' t' t'' uses' packets') :
    Laid p track (items ++ items') t t'' (uses ++ uses') (packets ++ packets') where
  toLaidBeside := h.toLaidBeside.append h'.toLaidBeside
  own := by
    rw [edges_append]
    exact h.own.append h'.own

theorem Laid.wrap {item : Item} (hholds : Holds p item items)
    (h : Laid p track items t t' uses packets) (name : String) :
    Laid p track [item] t t' uses (Placer.wrap track t name packets t') where
  toLaidBeside := h.toLaidBeside.wrap t name t'
  own := by
    rw [edges_wrap]
    exact h.own.wrap hholds

theorem LaidBeside.wrapBare {item : Item} (hbare : Bare p item)
    (h : LaidBeside p track uses packets) (hown : edges track packets = []) (hle : t ≤ t')
    (name : String) : Laid p track [item] t t' uses (Placer.wrap track t name packets t') where
  toLaidBeside := h.wrap t name t'
  own := by
    rw [edges_wrap, hown]
    exact .single hbare hle

theorem LaidBeside.edges_eq_nil {lane : Nat} (h : LaidBeside p (track ++ [lane]) uses packets) :
    edges track packets = [] := by
  have hne : track ≠ track ++ [lane] := by simp
  obtain ⟨blocks, hedges, hblocks⟩ := h.lanes track hne
  have hnone : (uses.filter fun use => use.lane = track) = [] := by
    refine List.filter_eq_nil_iff.mpr fun use huse heq => ?_
    have hprefix := (h.within use huse).1
    rw [of_decide_eq_true heq] at hprefix
    have := hprefix.length_le
    simp at this
  rw [hnone] at hblocks
  cases hblocks
  exact hedges

theorem Laid.lane {lane branch : Nat}
    (h : Laid p (track ++ [lane]) [.node branch] t
      (t + laidTime p.manifest p.slotNs branch) uses packets) (name : String) :
    LaidBeside p track (⟨track ++ [lane], t, branch⟩ :: uses)
      (.descriptor (track ++ [lane]) name :: packets) where
  within use huse := by
    rcases List.mem_cons.mp huse with rfl | huse
    · exact ⟨List.prefix_append _ _, by simp⟩
    · have hprefix := (h.within use huse).1
      refine ⟨(List.prefix_append _ _).trans hprefix, fun heq => ?_⟩
      have := hprefix.length_le
      rw [heq] at this
      simp at this
  lanes other hne := by
    have hedges : edges other (.descriptor (track ++ [lane]) name :: packets) =
        edges other packets := rfl
    rw [hedges]
    by_cases hlane : other = track ++ [lane]
    · obtain rfl := hlane
      -- the branch itself is the one use of its own lane
      have hnone : (uses.filter fun use => use.lane = track ++ [lane]) = [] := by
        refine List.filter_eq_nil_iff.mpr fun use huse heq => ?_
        exact (h.within use huse).2 (of_decide_eq_true heq)
      refine ⟨[⟨t, _, edges (track ++ [lane]) packets, h.own.slices⟩], ?_, ?_⟩
      · rw [List.flatMap_singleton]
      · rw [List.filter_cons_of_pos (by simp), hnone]
        exact .cons ⟨h.own, rfl, rfl⟩ .nil
    · rw [List.filter_cons_of_neg (by simpa using Ne.symm hlane)]
      exact h.lanes other hlane

end laid

/-! ## Placing in sequence and on lanes -/

theorem roundNs_nonneg {x : ℚ} (h : 0 ≤ x) : 0 ≤ roundNs x := by
  rw [roundNs, if_pos h]
  exact Int.floor_nonneg.mpr (by linarith)

theorem roundNs_intCast {n : Int} (h : 0 ≤ n) : roundNs n = n := by
  rw [roundNs, if_pos (by exact_mod_cast h), Int.floor_eq_iff]
  constructor <;> linarith

section steps

variable {p : Placer} {track : Track} {α : Type} {step : α → Int → Option (Int × List Packet)}
  {items : List α} {item : α → Item} {count : α → Nat}

theorem inOrder_collapsed
    (h : ∀ a ∈ items, ∀ t, ∃ d packets, step a t = some (d, packets) ∧
      Laid p track [item a] t (t + d) [] packets ∧ Pairs packets (count a)) (t : Int) :
    ∃ t' packets, inOrder step items t = some (t', packets) ∧
      Laid p track (items.map item) t t' [] packets ∧ Pairs packets (items.map count).sum := by
  induction items generalizing t with
  | nil => exact ⟨t, [], rfl, Laid.nil p track t, rfl, rfl⟩
  | cons a items ih =>
    obtain ⟨d, packets, hstep, hlaid, hpairs⟩ := h a List.mem_cons_self t
    obtain ⟨t', packets', hrest, hlaid', hpairs'⟩ :=
      ih (fun b hb => h b (List.mem_cons_of_mem _ hb)) (t + d)
    refine ⟨t', packets ++ packets', ?_, hlaid.append hlaid', hpairs.append hpairs'⟩
    simp only [inOrder, hstep, hrest, Option.bind_eq_bind, Option.bind_some]

theorem inOrder_expanded {time : α → Int} {uses : α → Track → Int → List LaneUse}
    (h : ∀ a ∈ items, ∀ t, ∃ packets, step a t = some (time a, packets) ∧
      Laid p track [item a] t (t + time a) (uses a track t) packets ∧ Pairs packets (count a))
    (t : Int) :
    ∃ packets, inOrder step items t = some (t + (items.map time).sum, packets) ∧
      Laid p track (items.map item) t (t + (items.map time).sum)
        (inSequence (items.map fun a => (time a, uses a)) track t) packets ∧
      Pairs packets (items.map count).sum := by
  induction items generalizing t with
  | nil =>
    have hend : t + (([] : List α).map time).sum = t := by
      rw [List.map_nil, List.sum_nil, add_zero]
    rw [hend]
    exact ⟨[], rfl, Laid.nil p track t, rfl, rfl⟩
  | cons a items ih =>
    obtain ⟨packets, hstep, hlaid, hpairs⟩ := h a List.mem_cons_self t
    obtain ⟨packets', hrest, hlaid', hpairs'⟩ :=
      ih (fun b hb => h b (List.mem_cons_of_mem _ hb)) (t + time a)
    rw [add_assoc, ← List.sum_cons, ← List.map_cons] at hrest hlaid'
    refine ⟨packets ++ packets', ?_, hlaid.append hlaid', hpairs.append hpairs'⟩
    simp only [inOrder, hstep, hrest, Option.bind_eq_bind, Option.bind_some]

theorem placeLanes_spec {place : Track → Nat → Int → ℚ → Option (Int × List Packet)}
    {branches : List Nat} {time : Nat → Int} {uses : Nat → Track → Int → List LaneUse}
    {count : Nat → Nat} {t0 : Int} (k : Nat) (htime : time = laidTime p.manifest p.slotNs)
    (h : ∀ c ∈ branches, ∀ lane : Nat, ∃ packets,
      place (track ++ [lane]) c t0 1 = some (time c, packets) ∧
      Laid p (track ++ [lane]) [.node c] t0 (t0 + time c) (uses c (track ++ [lane]) t0) packets ∧
      Pairs packets (count c)) :
    ∃ lanes, (branches.zipIdx k).mapM (Placer.placeLane place track t0 1) = some lanes ∧
      lanes.map Prod.fst = branches.map time ∧
      LaidBeside p track ((branches.zipIdx k).flatMap fun branch =>
        ⟨track ++ [branch.2], t0, branch.1⟩ :: uses branch.1 (track ++ [branch.2]) t0)
        (lanes.flatMap Prod.snd) ∧
      edges track (lanes.flatMap Prod.snd) = [] ∧
      Pairs (lanes.flatMap Prod.snd) (branches.map count).sum := by
  subst htime
  induction branches generalizing k with
  | nil => exact ⟨[], rfl, rfl, LaidBeside.nil p track, rfl, rfl, rfl⟩
  | cons c branches ih =>
    obtain ⟨packets, hplace, hlaid, hpairs⟩ := h c List.mem_cons_self k
    obtain ⟨lanes, hlanes, htimes, hbeside, hown, hpairs'⟩ :=
      ih (k + 1) fun b hb => h b (List.mem_cons_of_mem _ hb)
    have hlane : Placer.placeLane place track t0 1 (c, k) = some (laidTime p.manifest p.slotNs c,
          .descriptor (track ++ [k]) ("lane " ++ toString k) :: packets) := by
      simp only [Placer.placeLane, hplace, Option.bind_eq_bind, Option.bind_some]
    refine ⟨(laidTime p.manifest p.slotNs c,
      .descriptor (track ++ [k]) ("lane " ++ toString k) :: packets) :: lanes,
      ?_, ?_, ?_, ?_, ?_⟩
    · rw [List.zipIdx_cons, List.mapM_cons, hlane, hlanes]
      rfl
    · rw [List.map_cons, List.map_cons, htimes]
    · rw [List.zipIdx_cons, List.flatMap_cons, List.flatMap_cons]
      exact (hlaid.lane _).append hbeside
    · have habove : edges track packets = [] := hlaid.toLaidBeside.edges_eq_nil
      rw [List.flatMap_cons, edges_append, hown, List.append_nil]
      exact habove
    · have hlanePairs : Pairs
          (.descriptor (track ++ [k]) ("lane " ++ toString k) :: packets) (count c) := hpairs
      rw [List.flatMap_cons, List.map_cons, List.sum_cons]
      exact hlanePairs.append hpairs'

theorem placeLeaf_spec {idx slot : Nat} (hnode : p.manifest.nodes[idx]? = some (.leaf slot))
    (hslot : slot < p.manifest.slots.length) (t0 : Int) {scale : ℚ}
    (hdur : 0 ≤ roundNs (p.slotNs.getD slot 0 * scale)) :
    ∃ packets, p.placeLeaf track slot t0 scale =
        some (roundNs (p.slotNs.getD slot 0 * scale), packets) ∧
      Laid p track [.node idx] t0 (t0 + roundNs (p.slotNs.getD slot 0 * scale)) [] packets ∧
      Pairs packets 1 := by
  obtain ⟨desc, hdesc⟩ : ∃ desc, p.manifest.slots[slot]? = some desc :=
    ⟨_, List.getElem?_eq_getElem hslot⟩
  generalize hlength : roundNs (p.slotNs.getD slot 0 * scale) = dur at hdur
  refine ⟨[.sliceBegin track t0 (leafShortName desc.name)
    (p.leafAnnotations slot desc (p.slotNs.getD slot 0) dur), .sliceEnd track (t0 + dur)],
    ?_, ?_, rfl, rfl⟩
  · simp only [Placer.placeLeaf, hdesc, hlength, Option.bind_eq_bind, Option.bind_some]
  · refine { LaidBeside.nil p track with lanes := fun lane hne => ⟨[], ?_, .nil⟩, own := ?_ }
    · simp [edges, Packet.edge, Ne.symm hne]
    · simp only [edges, Packet.edge, List.filterMap_cons, if_true, List.filterMap_nil]
      exact .single (.inl ⟨slot, hnode⟩) (by omega)

end steps

/-! ## The critical branch -/

section critical

variable {m : Manifest} (hm : FlatTree m.nodes) (slotNs : List Int)
include hm

theorem exists_nodeTime {turns i : Nat} (hi : i < m.nodes.length)
    (hturns : m.nodes.length - i ≤ turns) : ∃ time, nodeTime m slotNs turns i = some time := by
  induction turns generalizing i with
  | zero => exact absurd hturns (by omega)
  | succ turns ih =>
    obtain ⟨node, hnode⟩ : ∃ node, m.nodes[i]? = some node := ⟨_, List.getElem?_eq_getElem hi⟩
    have hchild : ∀ c ∈ node.visited, nodeTime m slotNs turns c =
        some ((nodeTime m slotNs turns c).getD 0) := by
      intro c hc
      rw [← childPlaces_eq hnode] at hc
      have hbehind := hm.tree.behind i c hc
      obtain ⟨time, htime⟩ := ih (hm.tree.within i c hc) (by omega)
      rw [htime, Option.getD_some]
    have htimes := BalancedFold.mapM_some hchild
    rw [nodeTime, hnode, Option.bind_eq_bind, Option.bind_some]
    cases node with
    | leaf slot => exact ⟨_, rfl⟩
    | sum range => exact ⟨_, congrArg (Option.bind · _) htimes⟩
    | max overlap range => exact ⟨_, congrArg (Option.bind · _) htimes⟩
    | parallel overlap range => exact ⟨_, congrArg (Option.bind · _) htimes⟩
    | scale n range =>
      exact ⟨_, congrArg (Option.bind · _) (hchild _ List.mem_cons_self)⟩

omit hm in
theorem exists_lastSlowest {children : List (Nat × Int)} (h : children ≠ []) :
    ∃ best ∈ children, lastSlowest children = some best := by
  induction children with
  | nil => exact absurd rfl h
  | cons child children ih =>
    rw [lastSlowest]
    rcases eq_or_ne children [] with rfl | hne
    · exact ⟨child, List.mem_cons_self, rfl⟩
    · obtain ⟨best, hmem, hbest⟩ := ih hne
      rw [hbest]
      by_cases hle : child.2 ≤ best.2
      · exact ⟨best, List.mem_cons_of_mem _ hmem, by simp [hle]⟩
      · exact ⟨child, List.mem_cons_self, by simp [hle]⟩

theorem exists_criticalChild {range : ChildRange} (hlt : range.start < range.stop)
    (hwithin : range.stop ≤ m.nodes.length) :
    ∃ crit ∈ range.places, criticalChild m range slotNs = some crit := by
  have htimes : range.places.mapM (fun c =>
      (nodeTime m slotNs m.nodes.length c).map (Prod.mk c)) =
      some (range.places.map fun c => (c, (nodeTime m slotNs m.nodes.length c).getD 0)) := by
    refine BalancedFold.mapM_some fun c hc => ?_
    have hc' := ChildRange.mem_places.mp hc
    obtain ⟨time, htime⟩ :=
      exists_nodeTime hm slotNs (hc'.2.trans_le hwithin) (Nat.sub_le _ _)
    rw [htime]
    rfl
  have hne : range.places.map (fun c => (c, (nodeTime m slotNs m.nodes.length c).getD 0)) ≠ [] :=
    List.ne_nil_of_mem
      (List.mem_map_of_mem (ChildRange.mem_places.mpr ⟨le_refl range.start, hlt⟩))
  obtain ⟨best, hmem, hbest⟩ := exists_lastSlowest hne
  obtain ⟨c, hc, rfl⟩ := List.mem_map.mp hmem
  refine ⟨c, hc, ?_⟩
  rw [criticalChild, htimes, Option.bind_eq_bind, Option.bind_some, hbest]
  rfl

end critical

/-! ## The two views -/

section views

variable {p : Placer} (hm : Placeable p.manifest) (hns : ∀ ns ∈ p.slotNs, 0 ≤ ns)
include hm hns

omit hm in
theorem leafNs_nonneg (slot : Nat) : 0 ≤ p.slotNs.getD slot 0 := by
  rw [List.getD_eq_getElem?_getD]
  cases hslot : p.slotNs[slot]? with
  | none => exact le_refl _
  | some ns => exact hns ns (List.mem_of_getElem? hslot)

theorem place_collapsed (hcollapsed : p.expanded = false) {turns idx : Nat}
    (hi : idx < p.manifest.nodes.length) (hturns : p.manifest.nodes.length - idx ≤ turns)
    (track : Track) (t0 : Int) {scale : ℚ} (hscale : 0 ≤ scale) :
    ∃ dur packets count, p.place turns track idx t0 scale = some (dur, packets) ∧
      Laid p track [.node idx] t0 (t0 + dur) [] packets ∧
      criticalPairs p.manifest p.slotNs turns idx = some count ∧ Pairs packets count := by
  induction turns generalizing idx t0 scale with
  | zero => exact absurd hturns (by omega)
  | succ turns ih =>
    obtain ⟨node, hnode⟩ : ∃ node, p.manifest.nodes[idx]? = some node :=
      ⟨_, List.getElem?_eq_getElem hi⟩
    have hmem := List.mem_of_getElem? hnode
    have hchild : ∀ c ∈ node.visited, ∀ t {scale : ℚ}, 0 ≤ scale → ∃ d packets,
        p.place turns track c t scale = some (d, packets) ∧
        Laid p track [.node c] t (t + d) [] packets ∧
        criticalPairs p.manifest p.slotNs turns c =
          some ((criticalPairs p.manifest p.slotNs turns c).getD 0) ∧
        Pairs packets ((criticalPairs p.manifest p.slotNs turns c).getD 0) := by
      intro c hc t scale hscale
      rw [← childPlaces_eq hnode] at hc
      have hbehind := hm.tree.tree.behind idx c hc
      obtain ⟨d, packets, count, hplace, hlaid, hcount, hpairs⟩ :=
        ih (hm.tree.tree.within idx c hc) (by omega) t hscale
      rw [hcount, Option.getD_some]
      exact ⟨d, packets, hplace, hlaid, rfl, hpairs⟩
    -- a fan-out lays out its critical branch, squeezed into its own time
    have hfanOut : ∀ overlap range, node.visited = range.places → node.children = some range →
        (p.manifest.nodes[idx]? = some (.max overlap range) ∨
          p.manifest.nodes[idx]? = some (.parallel overlap range)) →
        ∃ crit ∈ range.places, criticalChild p.manifest range p.slotNs = some crit ∧
          ∃ d packets, p.placeFanOut (p.place turns) track overlap range t0 scale =
              some (d, packets) ∧
            Laid p track [.node crit] t0 (t0 + d) [] packets ∧
            criticalPairs p.manifest p.slotNs turns crit =
              some ((criticalPairs p.manifest p.slotNs turns crit).getD 0) ∧
            Pairs packets ((criticalPairs p.manifest p.slotNs turns crit).getD 0) := by
      intro overlap range hvisited hrange hkind
      have hwithin := hm.tree.within node hmem range hrange
      obtain ⟨crit, hcritMem, hcrit⟩ := exists_criticalChild hm.tree p.slotNs
        (hm.tree.nonempty node hmem range hrange) hwithin
      obtain ⟨time, htime⟩ := exists_nodeTime hm.tree p.slotNs
        ((ChildRange.mem_places.mp hcritMem).2.trans_le hwithin) (Nat.sub_le _ _)
      have hoverlap : 0 < overlap := hm.overlap overlap range
        (hkind.imp List.mem_of_getElem? List.mem_of_getElem?)
      have hnat : (0 : ℚ) ≤ (max time 1 : Int) := Int.cast_nonneg (le_max_of_le_right zero_le_one)
      have heff : (0 : ℚ) ≤ roundNs ((max time 1 : Int) / overlap) :=
        Int.cast_nonneg (roundNs_nonneg (div_nonneg hnat hoverlap.le))
      obtain ⟨d, packets, hplace, hrest⟩ := hchild crit (by rwa [hvisited]) t0
        (div_nonneg (mul_nonneg hscale heff) hnat)
      refine ⟨crit, hcritMem, hcrit, d, packets, ?_, hrest⟩
      rw [Placer.placeFanOut, hcollapsed]
      simp only [Bool.false_eq_true, if_false, hcrit, htime, Option.bind_eq_bind,
        Option.bind_some, hplace]
    simp only [Placer.place, criticalPairs, hnode, Option.bind_eq_bind, Option.bind_some]
    cases node with
    | leaf slot =>
      have hdur : 0 ≤ roundNs (p.slotNs.getD slot 0 * scale) :=
        roundNs_nonneg (mul_nonneg (Int.cast_nonneg (leafNs_nonneg hns slot)) hscale)
      obtain ⟨packets, hplace, hlaid, hpairs⟩ :=
        placeLeaf_spec hnode (hm.described slot hmem) t0 hdur
      exact ⟨_, packets, 1, hplace, hlaid, rfl, hpairs⟩
    | sum range =>
      obtain ⟨t', packets, horder, hlaid, hpairs⟩ := inOrder_collapsed
        (fun c hc t => by
          obtain ⟨d, packets, hplace, hlaid, -, hpairs⟩ := hchild c hc t hscale
          exact ⟨d, packets, hplace, hlaid, hpairs⟩) t0
      have hcounts : range.places.mapM (criticalPairs p.manifest p.slotNs turns) = some _ :=
        BalancedFold.mapM_some fun c hc => by
          obtain ⟨d, packets, -, -, hcount, -⟩ := hchild c hc t0 hscale
          exact hcount
      refine ⟨t' - t0, _, _, congrArg (Option.bind · _) horder, ?_,
        congrArg (Option.bind · _) hcounts, hpairs.wrap track t0 (p.labelOr idx "sum") t'⟩
      rw [add_sub_cancel]
      exact hlaid.wrap (.sum hnode) _
    | scale n range =>
      have hcount := hchild range.start List.mem_cons_self
      have hcopy : ∀ l ∈ List.range n, ∀ t, ∃ d packets,
          ((p.place turns track range.start t scale).bind fun placed =>
            some (placed.1, Placer.wrap track t (p.repeatName idx l) placed.2 (t + placed.1))) =
              some (d, packets) ∧
          Laid p track [.copy range.start] t (t + d) [] packets ∧
          Pairs packets
            (1 + (criticalPairs p.manifest p.slotNs turns range.start).getD 0) := by
        intro l _ t
        obtain ⟨d, packets, hplace, hlaid, -, hpairs⟩ := hcount t hscale
        refine ⟨d, _, congrArg (Option.bind · _) hplace, hlaid.wrap (.copy range.start) _, ?_⟩
        exact hpairs.wrap _ _ _ _
      obtain ⟨t', packets, horder, hlaid, hpairs⟩ := inOrder_collapsed hcopy t0
      obtain ⟨d, -, -, -, hcount, -⟩ := hcount t0 hscale
      rw [List.map_const', List.length_range] at hlaid hpairs
      rw [List.sum_replicate, smul_eq_mul] at hpairs
      refine ⟨t' - t0, _, _, congrArg (Option.bind · _) horder, ?_,
        congrArg (Option.bind · _) hcount, hpairs.wrap track t0 (p.scaleName idx n) t'⟩
      rw [add_sub_cancel]
      exact hlaid.wrap (.scale hnode) _
    | max overlap range =>
      obtain ⟨crit, -, hcrit, d, packets, hplace, hlaid, hcount, hpairs⟩ :=
        hfanOut overlap range rfl rfl (.inl hnode)
      refine ⟨d, _, _, congrArg (Option.bind · _) hplace,
        hlaid.wrap (.fanOut (.inl hnode) hcollapsed hcrit) _, ?_,
        hpairs.wrap track t0 (p.labelOr idx "max") (t0 + d)⟩
      exact (congrArg (Option.bind · _) hcrit).trans (congrArg (Option.bind · _) hcount)
    | parallel overlap range =>
      obtain ⟨crit, -, hcrit, d, packets, hplace, hlaid, hcount, hpairs⟩ :=
        hfanOut overlap range rfl rfl (.inr hnode)
      refine ⟨d, _, _, congrArg (Option.bind · _) hplace,
        hlaid.wrap (.fanOut (.inr hnode) hcollapsed hcrit) _, ?_,
        hpairs.wrap track t0 (p.labelOr idx "parallel") (t0 + d)⟩
      exact (congrArg (Option.bind · _) hcrit).trans (congrArg (Option.bind · _) hcount)

theorem place_expanded (hexpanded : p.expanded = true) {turns idx : Nat}
    (hi : idx < p.manifest.nodes.length) (hturns : p.manifest.nodes.length - idx ≤ turns)
    (track : Track) (t0 : Int) :
    ∃ packets count, p.place turns track idx t0 1 =
        some (laidTime p.manifest p.slotNs idx, packets) ∧
      Laid p track [.node idx] t0 (t0 + laidTime p.manifest p.slotNs idx)
        (laneUses p.manifest p.slotNs idx track t0) packets ∧
      slicePairs p.manifest turns idx = some count ∧ Pairs packets count := by
  induction turns generalizing idx track t0 with
  | zero => exact absurd hturns (by omega)
  | succ turns ih =>
    obtain ⟨node, hnode⟩ : ∃ node, p.manifest.nodes[idx]? = some node :=
      ⟨_, List.getElem?_eq_getElem hi⟩
    have hmem := List.mem_of_getElem? hnode
    have hchild : ∀ c ∈ node.visited, ∀ track t, ∃ packets,
        p.place turns track c t 1 = some (laidTime p.manifest p.slotNs c, packets) ∧
        Laid p track [.node c] t (t + laidTime p.manifest p.slotNs c)
          (laneUses p.manifest p.slotNs c track t) packets ∧
        slicePairs p.manifest turns c = some ((slicePairs p.manifest turns c).getD 0) ∧
        Pairs packets ((slicePairs p.manifest turns c).getD 0) := by
      intro c hc track t
      rw [← childPlaces_eq hnode] at hc
      have hbehind := hm.tree.tree.behind idx c hc
      obtain ⟨packets, count, hplace, hlaid, hcount, hpairs⟩ :=
        ih (hm.tree.tree.within idx c hc) (by omega) track t
      rw [hcount, Option.getD_some]
      exact ⟨packets, hplace, hlaid, rfl, hpairs⟩
    have hcounts : node.visited.mapM (slicePairs p.manifest turns) =
        some (node.visited.map fun c => (slicePairs p.manifest turns c).getD 0) :=
      BalancedFold.mapM_some fun c hc => by
        obtain ⟨packets, -, -, hcount, -⟩ := hchild c hc track t0
        exact hcount
    -- a fan-out's wrapper has the time of its longest branch over the overlap
    have hfanOut : ∀ overlap range, node.visited = range.places →
        (p.manifest.nodes[idx]? = some (.max overlap range) ∨
          p.manifest.nodes[idx]? = some (.parallel overlap range)) →
        ∃ packets, p.placeFanOut (p.place turns) track overlap range t0 1 =
            some (laidTime p.manifest p.slotNs idx, packets) ∧
          (∀ name, Laid p track [.node idx] t0 (t0 + laidTime p.manifest p.slotNs idx)
            (laneUses p.manifest p.slotNs idx track t0)
            (Placer.wrap track t0 name packets (t0 + laidTime p.manifest p.slotNs idx))) ∧
          Pairs packets
            (range.places.map fun c => (slicePairs p.manifest turns c).getD 0).sum := by
      intro overlap range hvisited hkind
      rw [hvisited] at hchild
      have hlane : ∀ c ∈ range.places, ∀ lane : Nat, ∃ packets,
          p.place turns (track ++ [lane]) c t0 1 = some (laidTime p.manifest p.slotNs c, packets) ∧
          Laid p (track ++ [lane]) [.node c] t0 (t0 + laidTime p.manifest p.slotNs c)
            (laneUses p.manifest p.slotNs c (track ++ [lane]) t0) packets ∧
          Pairs packets ((slicePairs p.manifest turns c).getD 0) := by
        intro c hc lane
        obtain ⟨packets, hplace, hlaid, -, hpairs⟩ := hchild c hc (track ++ [lane]) t0
        exact ⟨packets, hplace, hlaid, hpairs⟩
      obtain ⟨lanes, hlanes, htimes, hbeside, hown, hpairs⟩ := placeLanes_spec 0 rfl hlane
      have hoverlap : 0 < overlap := hm.overlap overlap range
        (hkind.imp List.mem_of_getElem? List.mem_of_getElem?)
      have hlength := laidTime_fanOut hm.tree p.slotNs hkind
      have hnonneg : 0 ≤ laidTime p.manifest p.slotNs idx := by
        rw [hlength]
        refine roundNs_nonneg (div_nonneg (Int.cast_nonneg ?_) hoverlap.le)
        exact List.foldlRecOn (motive := fun d => (0 : Int) ≤ d) _ _ (le_refl 0)
          fun d hd time _ => le_max_of_le_left hd
      refine ⟨_, ?_, fun name => ?_, hpairs⟩
      · rw [Placer.placeFanOut, if_pos hexpanded, hlanes, Option.bind_eq_bind, Option.bind_some,
          htimes, hlength]
      · rw [laneUses_fanOut hm.tree p.slotNs hkind]
        have hbare : Bare p (.node idx) := .inr ⟨hexpanded, overlap, range, hkind⟩
        exact hbeside.wrapBare hbare hown (by omega) name
    simp only [Placer.place, slicePairs, hnode, Option.bind_eq_bind, Option.bind_some]
    cases node with
    | leaf slot =>
      have hleaf : roundNs (p.slotNs.getD slot 0 * 1) = laidTime p.manifest p.slotNs idx := by
        rw [mul_one, roundNs_intCast (leafNs_nonneg hns slot), laidTime_leaf hm.tree _ hnode]
      have hdur : 0 ≤ roundNs (p.slotNs.getD slot 0 * 1) := by
        rw [mul_one, roundNs_intCast (leafNs_nonneg hns slot)]
        exact leafNs_nonneg hns slot
      obtain ⟨packets, hplace, hlaid, hpairs⟩ :=
        placeLeaf_spec hnode (hm.described slot hmem) t0 hdur
      rw [hleaf] at hplace hlaid
      rw [laneUses_leaf hm.tree p.slotNs hnode]
      exact ⟨packets, 1, hplace, hlaid, rfl, hpairs⟩
    | sum range =>
      obtain ⟨packets, horder, hlaid, hpairs⟩ := inOrder_expanded
        (fun c hc t => by
          obtain ⟨packets, hplace, hlaid, -, hpairs⟩ := hchild c hc track t
          exact ⟨packets, hplace, hlaid, hpairs⟩) t0
      rw [laneUses_sum hm.tree p.slotNs hnode, laidTime_sum hm.tree p.slotNs hnode]
      refine ⟨_, _, (congrArg (Option.bind · _) horder).trans ?_, hlaid.wrap (.sum hnode) _,
        congrArg (Option.bind · _) hcounts, hpairs.wrap track t0 (p.labelOr idx "sum") _⟩
      rw [Option.bind_some, add_sub_cancel_left]
      rfl
    | scale n range =>
      have hchildOf := hchild range.start List.mem_cons_self
      have hcopy : ∀ l ∈ List.range n, ∀ t, ∃ packets,
          ((p.place turns track range.start t 1).bind fun placed =>
            some (placed.1, Placer.wrap track t (p.repeatName idx l) placed.2 (t + placed.1))) =
              some (laidTime p.manifest p.slotNs range.start, packets) ∧
          Laid p track [.copy range.start] t (t + laidTime p.manifest p.slotNs range.start)
            (laneUses p.manifest p.slotNs range.start track t) packets ∧
          Pairs packets (1 + (slicePairs p.manifest turns range.start).getD 0) := by
        intro l _ t
        obtain ⟨packets, hplace, hlaid, -, hpairs⟩ := hchildOf track t
        refine ⟨_, congrArg (Option.bind · _) hplace, hlaid.wrap (.copy range.start) _, ?_⟩
        exact hpairs.wrap _ _ _ _
      obtain ⟨packets, horder, hlaid, hpairs⟩ := @inOrder_expanded _ _ _ _ _ _ _ _
        (fun _ => laneUses p.manifest p.slotNs range.start) hcopy t0
      obtain ⟨-, -, -, hcount, -⟩ := hchildOf track t0
      simp only [List.map_const', List.length_range, List.sum_replicate, smul_eq_mul,
        nsmul_eq_mul] at horder hlaid hpairs
      rw [laneUses_scale hm.tree p.slotNs hnode, laidTime_scale hm.tree p.slotNs hnode]
      refine ⟨_, _, (congrArg (Option.bind · _) horder).trans ?_, hlaid.wrap (.scale hnode) _,
        congrArg (Option.bind · _) hcount, hpairs.wrap track t0 (p.scaleName idx n) _⟩
      rw [Option.bind_some, add_sub_cancel_left]
    | max overlap range =>
      obtain ⟨packets, hplace, hlaid, hpairs⟩ := hfanOut overlap range rfl (.inl hnode)
      exact ⟨_, _, congrArg (Option.bind · _) hplace, hlaid (p.labelOr idx "max"),
        congrArg (Option.bind · _) hcounts, hpairs.wrap _ _ _ _⟩
    | parallel overlap range =>
      obtain ⟨packets, hplace, hlaid, hpairs⟩ := hfanOut overlap range rfl (.inr hnode)
      exact ⟨_, _, congrArg (Option.bind · _) hplace, hlaid (p.labelOr idx "parallel"),
        congrArg (Option.bind · _) hcounts, hpairs.wrap _ _ _ _⟩

end views

/-! ## An iteration -/

/-- The counter that the run loop caps an iteration by. -/
def Placer.pairsPerIter (p : Placer) : Option Nat :=
  if p.expanded then slicePairsPerIter p.manifest else criticalPairsPerIter p.manifest p.slotNs

/-- An iteration's packets: on the worker's track the slice of the root, with what it holds;
on every lane branches laid out like that; and as many slices as counted. -/
structure Placed (p : Placer) (track : Track) (t0 dur : Int) (packets : List Packet)
    (pairs : Nat) : Prop where
  own : Lays (Bare p) (Holds p) [.node 0] t0 (t0 + dur) (edges track packets)
  branches : ∀ lane ≠ track, ∃ blocks : List Block,
    edges lane packets = blocks.flatMap Block.edges ∧
    ∀ block ∈ blocks, ∃ c, Lays (Bare p) (Holds p) [.node c] block.start block.stop block.edges
  count : ∃ n, Pairs packets n ∧ 1 + n = pairs

/-- Any two slices of a track nest or are apart. -/
def Nests (packets : List Packet) : Prop := ∀ track, Laminar (edges track packets)

theorem pairwise_lane {uses : List LaneUse} {R : LaneUse → LaneUse → Prop}
    (h : uses.Pairwise fun use use' => use.lane = use'.lane → R use use') (lane : Track) :
    (uses.filter fun use => use.lane = lane).Pairwise R := by
  rw [List.pairwise_filter]
  refine h.imp fun hR hlane hlane' => hR ?_
  rw [of_decide_eq_true hlane, of_decide_eq_true hlane']

section iteration

variable {p : Placer} {track : Track} {t0 dur : Int} {uses : List LaneUse}
  {packets : List Packet}

theorem OnLane.apart {blocks : List Block} (h : List.Forall₂ (OnLane p) uses blocks)
    (hfree : uses.Pairwise fun earlier later =>
      earlier.startNs + laidTime p.manifest p.slotNs earlier.branch ≤ later.startNs) :
    ∃ t, Apart t (blocks.flatMap Block.edges) := by
  have hspans : blocks.map (fun block => (block.start, block.stop)) = uses.map fun use =>
      (use.startNs, use.startNs + laidTime p.manifest p.slotNs use.branch) := by
    induction h with
    | nil => rfl
    | cons hblock _ ih =>
      rw [List.map_cons, List.map_cons, ih (List.Pairwise.of_cons hfree), hblock.start, hblock.stop]
  have hpairwise : (blocks.map fun block => (block.start, block.stop)).Pairwise
      fun span span' => span.2 ≤ span'.1 := by
    rw [hspans, List.pairwise_map]
    exact hfree
  exact apart_of_pairwise (List.pairwise_map.mp hpairwise)

theorem OnLane.exists_of_mem {blocks : List Block} (h : List.Forall₂ (OnLane p) uses blocks) :
    ∀ block ∈ blocks, ∃ use, OnLane p use block := by
  induction h with
  | nil => exact fun block hblock => absurd hblock List.not_mem_nil
  | cons hhead _ ih =>
    intro block hblock
    rcases List.mem_cons.mp hblock with rfl | hblock
    · exact ⟨_, hhead⟩
    · exact ih block hblock

theorem Laid.placed (h : Laid p track [.node 0] t0 (t0 + dur) uses packets) {n : Nat}
    (hpairs : Pairs packets n) : Placed p track t0 dur packets (1 + n) where
  own := h.own
  branches lane hlane := by
    obtain ⟨blocks, hedges, hblocks⟩ := h.lanes lane hlane
    refine ⟨blocks, hedges, fun block hblock => ?_⟩
    obtain ⟨use, honLane⟩ := OnLane.exists_of_mem hblocks block hblock
    exact ⟨use.branch, honLane.lays⟩
  count := ⟨n, hpairs, rfl⟩

theorem Laid.nests (h : Laid p track [.node 0] t0 (t0 + dur) uses packets)
    (hfree : uses.Pairwise fun earlier later => earlier.lane = later.lane →
      earlier.startNs + laidTime p.manifest p.slotNs earlier.branch ≤ later.startNs) :
    Nests packets := by
  intro lane
  by_cases hlane : lane = track
  · have hown : Apart t0 (edges track packets ++ []) := .block (le_refl _) h.own.slices (.nil _)
    rw [hlane, ← List.append_nil (edges track packets)]
    exact hown.laminar
  · obtain ⟨blocks, hedges, hblocks⟩ := h.lanes lane hlane
    obtain ⟨t, hapart⟩ := OnLane.apart hblocks (pairwise_lane hfree lane)
    rw [hedges]
    exact hapart.laminar

end iteration

/-- Every iteration is laid out and counted; its slices nest on every track in the collapsed
view, and in the expanded one when no branch of a fan-out starts on a lane that an earlier
one still takes. -/
theorem placement {p : Placer} (hm : Placeable p.manifest) (hns : ∀ ns ∈ p.slotNs, 0 ≤ ns)
    (track : Track) (t0 : Int) :
    ∃ dur packets pairs, p.placeRoot track t0 = some (dur, packets) ∧
      p.pairsPerIter = some pairs ∧ Placed p track t0 dur packets pairs ∧
      ((p.expanded = true → LanesFree p.manifest p.slotNs track t0) → Nests packets) := by
  cases hview : p.expanded with
  | true =>
    obtain ⟨packets, count, hplace, hlaid, hcount, hpairs⟩ :=
      place_expanded hm hns hview hm.root (Nat.sub_le _ _) track t0
    refine ⟨_, packets, 1 + count, hplace, ?_, hlaid.placed hpairs, fun h => hlaid.nests (h rfl)⟩
    rw [Placer.pairsPerIter, if_pos hview, slicePairsPerIter, hcount]
    rfl
  | false =>
    obtain ⟨dur, packets, count, hplace, hlaid, hcount, hpairs⟩ :=
      place_collapsed hm hns hview hm.root (Nat.sub_le _ _) track t0 zero_le_one
    refine ⟨dur, packets, 1 + count, hplace, ?_, hlaid.placed hpairs, fun _ => hlaid.nests .nil⟩
    rw [Placer.pairsPerIter, hview, criticalPairsPerIter, hcount]
    rfl

/-- Layers one after the other, each with a fan-out of two branches. -/
def layeredManifest (overlap : ℚ) : Manifest where
  slots := [⟨"a", "k", "\x7b\x7d"⟩, ⟨"b", "k", "\x7b\x7d"⟩, ⟨"c", "k", "\x7b\x7d"⟩,
    ⟨"d", "k", "\x7b\x7d"⟩]
  nodes := [.sum ⟨1, 4⟩, .leaf 0, .scale 3 ⟨4, 5⟩, .leaf 3, .max overlap ⟨5, 7⟩, .leaf 1, .leaf 2]
  nodeLabels := [some "root", none, some "layer", none, some "attn", none, none]

def layered (overlap : ℚ) (expanded : Bool) : Placer :=
  ⟨layeredManifest overlap, [10, 8, 4, 5], [], [], [], expanded⟩

theorem layeredManifest_placeable {factor : ℚ} (hfactor : factor = 1 ∨ factor = 2) :
    Placeable (layeredManifest factor) where
  tree := by
    rcases hfactor with rfl | rfl
    · exact flatTree_of_forall (by decide)
    · exact flatTree_of_forall (by decide)
  root := Nat.succ_pos _
  described slot hslot := by
    simp only [layeredManifest, List.mem_cons, FlatCostNode.leaf.injEq, reduceCtorEq, false_or,
      List.not_mem_nil, or_false] at hslot
    show slot < 4
    omega
  overlap overlap range hnode := by
    simp only [layeredManifest, List.mem_cons, FlatCostNode.max.injEq, reduceCtorEq, false_or,
      List.not_mem_nil, or_false] at hnode
    rw [hnode.1]
    rcases hfactor with rfl | rfl <;> norm_num

/-- A layer at its natural speed keeps its lanes to itself: both views nest. -/
theorem placement_layered :
    (∃ dur packets pairs, (layered 2 false).placeRoot [] 0 = some (dur, packets) ∧
      (layered 2 false).pairsPerIter = some pairs ∧
          Placed (layered 2 false) [] 0 dur packets pairs ∧
      Nests packets) ∧
    ∃ dur packets pairs, (layered 1 true).placeRoot [] 0 = some (dur, packets) ∧
      (layered 1 true).pairsPerIter = some pairs ∧
      Placed (layered 1 true) [] 0 dur packets pairs ∧ Nests packets := by
  constructor
  · obtain ⟨dur, packets, pairs, hplace, hpairs, hplaced, hnests⟩ :=
      placement (p := layered 2 false) (layeredManifest_placeable (.inr rfl))
        (show ∀ ns ∈ [10, 8, 4, 5], (0 : Int) ≤ ns by decide) [] 0
    exact ⟨dur, packets, pairs, hplace, hpairs, hplaced,
      hnests fun h => absurd h Bool.false_ne_true⟩
  · obtain ⟨dur, packets, pairs, hplace, hpairs, hplaced, hnests⟩ :=
      placement (p := layered 1 true) (layeredManifest_placeable (.inl rfl))
        (show ∀ ns ∈ [10, 8, 4, 5], (0 : Int) ≤ ns by decide) [] 0
    exact ⟨dur, packets, pairs, hplace, hpairs, hplaced, hnests fun _ => by decide +kernel⟩

/-- At twice its speed it does not: the first branch of a layer runs for eight on its lane,
which the next layer's takes after four. -/
theorem lanes_cross : Placeable (layeredManifest 2) ∧ (∀ ns ∈ (layered 2 true).slotNs, 0 ≤ ns) ∧
    ∃ dur packets, (layered 2 true).placeRoot [] 0 = some (dur, packets) ∧
      edges [0] packets = [⟨true, 10⟩, ⟨false, 18⟩, ⟨true, 14⟩, ⟨false, 22⟩, ⟨true, 18⟩,
        ⟨false, 26⟩] ∧ ¬Nests packets := by
  have hns : ∀ ns ∈ (layered 2 true).slotNs, 0 ≤ ns := by decide
  obtain ⟨packets, count, hplace, -⟩ :=
    place_expanded (p := layered 2 true) (layeredManifest_placeable (.inr rfl)) hns rfl
      (layeredManifest_placeable (.inr rfl)).root (Nat.sub_le _ _) [] 0
  have hedges : edges [0] packets =
      [⟨true, 10⟩, ⟨false, 18⟩, ⟨true, 14⟩, ⟨false, 22⟩, ⟨true, 18⟩, ⟨false, 26⟩] := by
    have hrun : ((layered 2 true).placeRoot [] 0).map (fun placed => edges [0] placed.2) =
        some [⟨true, 10⟩, ⟨false, 18⟩, ⟨true, 14⟩, ⟨false, 22⟩, ⟨true, 18⟩, ⟨false, 26⟩] := by
      decide +kernel
    rw [Placer.placeRoot, hplace] at hrun
    exact Option.some.inj hrun
  refine ⟨layeredManifest_placeable (.inr rfl), hns, _, packets, hplace, hedges, fun hnests => ?_⟩
  have hlane := hnests [0]
  rw [hedges] at hlane
  exact absurd hlane (by decide)

end TracePlacement

end ServingSim
