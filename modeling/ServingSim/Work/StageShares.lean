import ServingSim.Lib.Dictionary
import ServingSim.Work.PipelineStages
import Mathlib.Data.List.GetD

/-
  The stages of a pipeline share the whole model.

  A row is spread over some layers: those of its stack, the first, or the last. Stages that
  tile the layers split every such list, so the shares of a row sum to one; and as the
  resource that binds a shape is chosen once for the whole shape, a stage's floors are a
  linear function of its shares.
-/

namespace ServingSim

namespace PipelineStages

/-! ## Tiles -/

/-- Ranges that go on where the one before ends. -/
def Chain : Int → List (Int × Int) → Int → Prop
  | start, [], stop => start = stop
  | start, range :: ranges, stop => range.1 = start ∧ Chain range.2 ranges stop

theorem chain_of_ends {start stop : Int} {ranges : List (Int × Int)}
    (hstarts : ranges.map Prod.fst = (start :: ranges.map Prod.snd).dropLast)
    (hstop : (start :: ranges.map Prod.snd).getLastD 0 = stop) : Chain start ranges stop := by
  induction ranges generalizing start with
  | nil => exact hstop
  | cons range ranges ih =>
    rw [List.map_cons, List.map_cons, List.dropLast_cons_cons] at hstarts
    obtain ⟨hfirst, hrest⟩ := List.cons.inj hstarts
    exact ⟨hfirst, ih hrest hstop⟩

theorem Chain.start_le {start stop : Int} {ranges : List (Int × Int)} (h : Chain start ranges stop)
    (hranges : ∀ range ∈ ranges, range.1 < range.2) : start ≤ stop := by
  induction ranges generalizing start with
  | nil => exact h.le
  | cons range ranges ih =>
    obtain ⟨hrange, hrest⟩ := List.forall_mem_cons.mp hranges
    have := h.1
    have := ih h.2 hrest
    omega

/-- How many of some layers a range holds. -/
def held (layers : List Nat) (range : Int × Int) : Nat :=
  layers.countP fun layer : Nat => range.1 ≤ layer ∧ layer < range.2

theorem held_split (layers : List Nat) {start middle stop : Int} (h : start ≤ middle)
    (h' : middle ≤ stop) :
    held layers (start, stop) = held layers (start, middle) + held layers (middle, stop) := by
  induction layers with
  | nil => rfl
  | cons layer layers ih =>
    simp only [held, List.countP_cons, decide_eq_true_eq] at ih ⊢
    split_ifs <;> omega

theorem Chain.sum_held {start stop : Int} {ranges : List (Int × Int)} (h : Chain start ranges stop)
    (hranges : ∀ range ∈ ranges, range.1 < range.2) (layers : List Nat) :
    (ranges.map (held layers)).sum = held layers (start, stop) := by
  induction ranges generalizing start with
  | nil =>
    obtain rfl : start = stop := h
    refine (List.countP_eq_zero.mpr fun layer _ => ?_).symm
    simp only [decide_eq_true_eq]
    omega
  | cons range ranges ih =>
    obtain ⟨hrange, hrest⟩ := List.forall_mem_cons.mp hranges
    obtain ⟨hstart, hchain⟩ := h
    subst hstart
    rw [List.map_cons, List.sum_cons, ih hchain hrest]
    exact (held_split layers hrange.le (hchain.start_le hrest)).symm

/-! ## Shares -/

/-- What building a model has checked: its main body's layers are the decoder's. -/
structure Model.Declared (model : Model) : Prop where
  layers : ∀ stack ∈ model.body, stack.layers ≠ []
  checked : model.checkLayers = .ok ()

variable {model : Model}

theorem Model.Declared.lt_numLayers (h : model.Declared) {stack : LayerStack}
    (hstack : stack ∈ model.body) {layer : Nat} (hlayer : layer ∈ stack.layers) :
    layer < model.numLayers := by
  have hchecked := h.checked
  rw [Model.checkLayers, if_pos ⟨stack, hstack, h.layers stack hstack⟩, ensure_eq_ok_iff,
    not_or, not_not] at hchecked
  have hmem : layer ∈ model.body.flatMap (·.layers) := List.mem_flatMap.mpr ⟨stack, hstack, hlayer⟩
  rw [← List.mem_insertionSort (· ≤ ·), hchecked.2] at hmem
  exact List.mem_range.mp hmem

/-- A row's share on a stage, zero where it is refused. -/
def shareAt (model : Model) (segment : Segment) (range : Int × Int) : ℚ :=
  match model.pipelineStageShare segment range with
  | .ok share => share
  | .error _ => 0

/-- A row can be placed on every stage. -/
def Placed (model : Model) (ranges : List (Int × Int)) (segment : Segment) : Prop :=
  ∀ range ∈ ranges, model.pipelineStageShare segment range = .ok (shareAt model segment range)

/-- The layers a row is spread over. -/
def spread (model : Model) (segment : Segment) : List Nat :=
  match segment.stack with
  | none => if segment.name = embeddingSegment then [0] else [model.numLayers - 1]
  | some tag =>
    ((model.layers.filter fun stack => stack.tag = tag ∧ stack.stage = none).head?.map
      (·.layers)).getD []

theorem share_eq (hmodel : model.Declared) {segment : Segment}
    {range : Int × Int} {share : ℚ} (h : model.pipelineStageShare segment range = .ok share) :
    spread model segment ≠ [] ∧ (∀ layer ∈ spread model segment, layer < model.numLayers) ∧
      (0 ≤ range.1 ∧ range.1 < range.2 ∧ range.2 ≤ model.numLayers) ∧
      share = held (spread model segment) range / (spread model segment).length := by
  cases hstack : segment.stack with
  | none =>
    by_cases hname : segment.name = embeddingSegment
    · have hspread : spread model segment = [0] := by
        simp only [spread, hstack]
        exact if_pos hname
      simp only [Model.pipelineStageShare, hstack, check_then_eq_ok_iff, ensure_eq_ok_iff,
        if_pos hname, Except.ok.injEq] at h
      obtain ⟨hrange, -, rfl⟩ := h
      rw [hspread]
      refine ⟨List.cons_ne_nil _ _, fun layer hlayer => ?_, hrange, ?_⟩
      · have := List.mem_singleton.mp hlayer
        omega
      · -- a stage that is not empty holds the first layer when it starts there
        have hheld : (range.1 ≤ ((0 : Nat) : Int) ∧ ((0 : Nat) : Int) < range.2) ↔ range.1 = 0 := by
          omega
        simp only [held, List.countP_singleton, decide_eq_true_eq, hheld, List.length_singleton]
        split
        · norm_num
        · norm_num
    · have hspread : spread model segment = [model.numLayers - 1] := by
        simp only [spread, hstack]
        exact if_neg hname
      simp only [Model.pipelineStageShare, hstack, check_then_eq_ok_iff, ensure_eq_ok_iff,
        if_neg hname, Except.ok.injEq] at h
      obtain ⟨hrange, -, rfl⟩ := h
      rw [hspread]
      refine ⟨List.cons_ne_nil _ _, fun layer hlayer => ?_, hrange, ?_⟩
      · have := List.mem_singleton.mp hlayer
        omega
      · have hheld : (range.1 ≤ ((model.numLayers - 1 : Nat) : Int) ∧
            ((model.numLayers - 1 : Nat) : Int) < range.2) ↔ range.2 = model.numLayers := by
          omega
        simp only [held, List.countP_singleton, decide_eq_true_eq, hheld, List.length_singleton]
        split
        · norm_num
        · norm_num
  | some tag =>
    simp only [Model.pipelineStageShare, hstack, check_then_eq_ok_iff, ensure_eq_ok_iff,
      Except.ok.injEq] at h
    obtain ⟨hrange, ⟨hone, hne⟩, rfl⟩ := h
    have hspread : spread model segment = ((model.layers.filter fun stack =>
        stack.tag = tag ∧ stack.stage = none).head?.map (·.layers)).getD [] := by
      simp only [spread, hstack]
    rw [hspread]
    refine ⟨hne, fun layer hlayer => ?_, hrange, rfl⟩
    obtain ⟨stack, hstacks⟩ := List.length_eq_one_iff.mp hone
    rw [hstacks] at hlayer
    have hmem : stack ∈ model.layers.filter fun stack => stack.tag = tag ∧ stack.stage = none := by
      rw [hstacks]
      exact List.mem_singleton_self stack
    rw [List.mem_filter, decide_eq_true_eq] at hmem
    exact hmodel.lt_numLayers (List.mem_filter.mpr ⟨hmem.1, decide_eq_true hmem.2.2⟩) hlayer

theorem shareAt_nonneg (hmodel : model.Declared) (segment : Segment)
    (range : Int × Int) : 0 ≤ shareAt model segment range := by
  rw [shareAt]
  cases h : model.pipelineStageShare segment range with
  | error message => exact le_rfl
  | ok share =>
    obtain ⟨-, -, -, rfl⟩ := share_eq hmodel h
    exact div_nonneg (Nat.cast_nonneg _) (Nat.cast_nonneg _)

theorem sum_shareAt (hmodel : model.Declared) {poolTag : String}
    {ranges : List (Int × Int)} (htiles : checkTiles poolTag ranges model = .ok ())
    (hne : ranges ≠ []) {segment : Segment} (hplaced : Placed model ranges segment) :
    (ranges.map (shareAt model segment)).sum = 1 := by
  have hperm := List.perm_insertionSort tupleLe ranges
  rw [checkTiles, ensure_eq_ok_iff, not_or, not_not, not_not] at htiles
  have hchain := chain_of_ends htiles.1 htiles.2
  have hshare := fun range hrange => share_eq hmodel (hplaced range hrange)
  obtain ⟨range, hrange⟩ := List.exists_mem_of_ne_nil ranges hne
  obtain ⟨hspread, hlayers, -, -⟩ := hshare range hrange
  have hsum := hchain.sum_held (fun range hrange =>
    (hshare range (hperm.mem_iff.mp hrange)).2.2.1.2.1) (spread model segment)
  have hall : held (spread model segment) (0, (model.numLayers : Int)) =
      (spread model segment).length := by
    refine List.countP_eq_length.mpr fun layer hlayer => decide_eq_true ?_
    have := hlayers layer hlayer
    omega
  have hlength : ((spread model segment).length : ℚ) ≠ 0 :=
    Nat.cast_ne_zero.mpr (List.length_pos_iff.mpr hspread).ne'
  calc (ranges.map (shareAt model segment)).sum
      = (ranges.map fun range => (held (spread model segment) range : ℚ) /
          (spread model segment).length).sum := by
        refine congrArg List.sum (List.map_congr_left fun range hrange => ?_)
        exact (hshare range hrange).2.2.2
    _ = ((ranges.map (held (spread model segment))).sum : Nat) / (spread model segment).length := by
        simp only [div_eq_mul_inv, List.sum_map_mul_right, Nat.cast_list_sum, List.map_map]
        rfl
    _ = 1 := by
        rw [← (hperm.map _).sum_eq, hsum, hall, div_self hlength]

/-! ## What the stages learn -/

/-- The rows that are learned, each under its name, the first of a name. -/
def learnOwner (owners : List (String × Segment)) (segment : Segment) : List (String × Segment) :=
  match owners.lookup segment.name with
  | some _ => owners
  | none => owners ++ [(segment.name, segment)]

/-- A stage has learned the shares of these rows. -/
def Knows (model : Model) (owners : List (String × Segment)) (view : StageShares) : Prop :=
  List.Forall₂ (fun owner entry => entry.1 = owner.1 ∧
    model.pipelineStageShare owner.2 view.layers = .ok entry.2) owners view.shareByName

theorem learnRow_spec {owners : List (String × Segment)} {view : StageShares}
    (h : Knows model owners view) {segment : Segment} {ranges : List (Int × Int)}
    (hplaced : Placed model ranges segment) (hview : view.layers ∈ ranges) :
    ∃ view', view.learnRow model segment = .ok view' ∧ view'.layers = view.layers ∧
      Knows model (learnOwner owners segment) view' := by
  have hshare := hplaced view.layers hview
  rcases Dictionary.lookup_forall₂ (fun _ _ hQ => hQ.1) h segment.name with
    ⟨howner, hknown⟩ | ⟨owner, entry, -, -, -, howner, hknown⟩
  · refine ⟨{ view with shareByName := view.shareByName ++
      [(segment.name, shareAt model segment view.layers)] }, ?_, rfl, ?_⟩
    · simp only [StageShares.learnRow, hknown, hshare]
      rfl
    · simp only [learnOwner, howner]
      exact List.rel_append h (.cons ⟨rfl, hshare⟩ .nil)
  · refine ⟨view, ?_, rfl, ?_⟩
    · simp only [StageShares.learnRow, hknown]
    · simp only [learnOwner, howner]
      exact h

theorem learn_spec {model : Model} {ranges : List (Int × Int)} {segments : List Segment}
    (hplaced : ∀ segment ∈ segments, Placed model ranges segment)
    {owners : List (String × Segment)} {view : StageShares} (h : Knows model owners view)
    (hview : view.layers ∈ ranges) :
    ∃ view', view.learn model segments = .ok view' ∧ view'.layers = view.layers ∧
      Knows model (segments.foldl learnOwner owners) view' := by
  induction segments generalizing owners view with
  | nil => exact ⟨view, rfl, rfl, h⟩
  | cons segment segments ih =>
    obtain ⟨hsegment, hsegments⟩ := List.forall_mem_cons.mp hplaced
    obtain ⟨view', hok, hlayers, hknows⟩ := learnRow_spec h hsegment hview
    obtain ⟨view'', hok', hlayers', hknows'⟩ := ih hsegments hknows (hlayers ▸ hview)
    refine ⟨view'', ?_, hlayers'.trans hlayers, hknows'⟩
    rw [StageShares.learn, List.foldlM_cons, hok]
    exact hok'

theorem exists_mapM_ok {α β : Type} {f : α → Except String β} {P : α → β → Prop} {xs : List α}
    (h : ∀ x ∈ xs, ∃ y, f x = .ok y ∧ P x y) :
    ∃ ys, xs.mapM f = .ok ys ∧ List.Forall₂ P xs ys := by
  induction xs with
  | nil => exact ⟨[], rfl, .nil⟩
  | cons x xs ih =>
    obtain ⟨hx, hxs⟩ := List.forall_mem_cons.mp h
    obtain ⟨y, hy, hP⟩ := hx
    obtain ⟨ys, hys, hPs⟩ := ih hxs
    refine ⟨y :: ys, ?_, .cons hP hPs⟩
    rw [List.mapM_cons, hy, hys]
    rfl

/-- Rows of one name are at one precision; the source refuses a label in which they are not. -/
def SameDtypes (defaultDtype : String) (segments : List Segment) : Prop :=
  ∀ segment ∈ segments, ∀ segment' ∈ segments, segment.name = segment'.name →
    segment.computeDtype.getD defaultDtype = segment'.computeDtype.getD defaultDtype

/-- The precisions of the rows that are learned. -/
def Pinned (defaultDtype : String) (owners : List (String × Segment))
    (dtypes : List (String × String)) : Prop :=
  List.Forall₂ (fun owner entry => entry.1 = owner.1 ∧
    entry.2 = owner.2.computeDtype.getD defaultDtype) owners dtypes

theorem mem_learnOwner {owners : List (String × Segment)} {segment : Segment}
    {entry : String × Segment} (h : entry ∈ learnOwner owners segment) :
    entry ∈ owners ∨ entry = (segment.name, segment) := by
  rw [learnOwner] at h
  split at h
  · exact .inl h
  · rcases List.mem_append.mp h with h | h
    · exact .inl h
    · exact .inr (List.mem_singleton.mp h)

/-- The rows that are learned stand under their own names. -/
def OwnersIn (segments : List Segment) (owners : List (String × Segment)) : Prop :=
  ∀ entry ∈ owners, entry.2 ∈ segments ∧ entry.2.name = entry.1

theorem OwnersIn.learnOwner {segments : List Segment} {owners : List (String × Segment)}
    (h : OwnersIn segments owners) {segment : Segment} (hsegment : segment ∈ segments) :
    OwnersIn segments (learnOwner owners segment) := by
  intro entry hentry
  rcases mem_learnOwner hentry with hentry | rfl
  · exact h entry hentry
  · exact ⟨hsegment, rfl⟩

variable {defaultDtype : String}

theorem addDtype_spec {segments : List Segment}
    (hsame : SameDtypes defaultDtype segments) {owners : List (String × Segment)}
    {dtypes : List (String × String)} (h : Pinned defaultDtype owners dtypes)
    (howners : OwnersIn segments owners) {segment : Segment} (hsegment : segment ∈ segments) :
    ∃ dtypes', addDtype defaultDtype dtypes segment = .ok dtypes' ∧
      Pinned defaultDtype (learnOwner owners segment) dtypes' := by
  rcases Dictionary.lookup_forall₂ (fun _ _ hQ => hQ.1) h segment.name with
    ⟨howner, hknown⟩ | ⟨owner, entry, hentry, hmem, hkey, howner, hknown⟩
  · refine ⟨dtypes ++ [(segment.name, segment.computeDtype.getD defaultDtype)],
      by simp only [addDtype, hknown], ?_⟩
    simp only [learnOwner, howner]
    exact List.rel_append h (.cons ⟨rfl, rfl⟩ .nil)
  · obtain ⟨hin, hname⟩ := howners owner hmem
    have hdtype : entry.2 = segment.computeDtype.getD defaultDtype :=
      hentry.2.trans (hsame owner.2 hin segment hsegment (hname.trans hkey))
    refine ⟨dtypes, ?_, ?_⟩
    · simp only [addDtype, hknown, ensure, if_pos hdtype]
      rfl
    · simp only [learnOwner, howner]
      exact h

theorem addDtypes_spec {segments : List Segment}
    (hsame : SameDtypes defaultDtype segments) {rows : List Segment}
    (hrows : ∀ segment ∈ rows, segment ∈ segments) {owners : List (String × Segment)}
    {dtypes : List (String × String)} (h : Pinned defaultDtype owners dtypes)
    (howners : OwnersIn segments owners) :
    ∃ dtypes', rows.foldlM (addDtype defaultDtype) dtypes = .ok dtypes' ∧
      Pinned defaultDtype (rows.foldl learnOwner owners) dtypes' ∧
      OwnersIn segments (rows.foldl learnOwner owners) := by
  induction rows generalizing owners dtypes with
  | nil => exact ⟨dtypes, rfl, h, howners⟩
  | cons row rows ih =>
    obtain ⟨hrow, hrows⟩ := List.forall_mem_cons.mp hrows
    obtain ⟨dtypes', hok, hpinned⟩ := addDtype_spec hsame h howners hrow
    obtain ⟨dtypes'', hok', hpinned', howners'⟩ := ih hrows hpinned (howners.learnOwner hrow)
    refine ⟨dtypes'', ?_, hpinned', howners'⟩
    rw [List.foldlM_cons, hok]
    exact hok'

theorem knows_of_forall₂ {owners : List (String × Segment)}
    {views views' : List StageShares} (h : List.Forall₂ (fun view view' =>
      view'.layers = view.layers ∧ Knows model owners view') views views') :
    views'.map (·.layers) = views.map (·.layers) ∧ ∀ view ∈ views', Knows model owners view := by
  induction h with
  | nil => exact ⟨rfl, fun view hview => (List.not_mem_nil hview).elim⟩
  | cons hhead _ ih =>
    exact ⟨by rw [List.map_cons, List.map_cons, hhead.1, ih.1],
      List.forall_mem_cons.mpr ⟨hhead.2, ih.2⟩⟩

/-- All stages have learned the same rows, and their precisions. -/
structure Learnt (model : Model) (ranges : List (Int × Int)) (defaultDtype : String)
    (segments : List Segment) (owners : List (String × Segment)) (state : Learned) : Prop where
  layers : state.views.map (·.layers) = ranges
  knows : ∀ view ∈ state.views, Knows model owners view
  pinned : Pinned defaultDtype owners state.dtypes
  owners : OwnersIn segments owners

section

variable {ranges : List (Int × Int)} {segments : List Segment}
  (hplaced : ∀ segment ∈ segments, Placed model ranges segment)
  (hsame : SameDtypes defaultDtype segments)

include ranges segments hplaced hsame

theorem learnShape_spec {owners : List (String × Segment)} {state : Learned}
    (h : Learnt model ranges defaultDtype segments owners state) {shape : Shape}
    (hshape : ∀ segment ∈ shape.segments, segment ∈ segments) :
    ∃ state', learnShape model defaultDtype state shape = .ok state' ∧
      Learnt model ranges defaultDtype segments (shape.segments.foldl learnOwner owners)
        state' := by
  have hview : ∀ view ∈ state.views, view.layers ∈ ranges := fun view hview => by
    rw [← h.layers]
    exact List.mem_map_of_mem hview
  obtain ⟨views, hviews, hforall⟩ := exists_mapM_ok fun view hmem =>
    learn_spec (fun segment hsegment => hplaced segment (hshape segment hsegment))
      (h.knows view hmem) (hview view hmem)
  obtain ⟨dtypes, hdtypes, hpinned, howners⟩ := addDtypes_spec hsame hshape h.pinned h.owners
  obtain ⟨hlayers, hknows⟩ := knows_of_forall₂ hforall
  refine ⟨⟨views, dtypes⟩, ?_, hlayers.trans h.layers, hknows, hpinned, howners⟩
  rw [learnShape, hviews, hdtypes]
  rfl

theorem learned_spec {shapes : List Shape}
    (hshapes : ∀ shape ∈ shapes, ∀ segment ∈ shape.segments, segment ∈ segments)
    {owners : List (String × Segment)} {state : Learned}
    (h : Learnt model ranges defaultDtype segments owners state) :
    ∃ state', shapes.foldlM (learnShape model defaultDtype) state = .ok state' ∧
      Learnt model ranges defaultDtype segments
        ((shapes.flatMap (·.segments)).foldl learnOwner owners) state' := by
  induction shapes generalizing owners state with
  | nil => exact ⟨state, rfl, h⟩
  | cons shape shapes ih =>
    obtain ⟨hshape, hshapes⟩ := List.forall_mem_cons.mp hshapes
    obtain ⟨state', hok, hlearnt⟩ := learnShape_spec hplaced hsame h hshape
    obtain ⟨state'', hok', hlearnt'⟩ := ih hshapes hlearnt
    refine ⟨state'', ?_, ?_⟩
    · rw [List.foldlM_cons, hok]
      exact hok'
    · rwa [List.flatMap_cons, List.foldl_append]

end

theorem learnOwners_keys (rows : List Segment) {owners : List (String × Segment)}
    (h : (owners.map Prod.fst).Nodup) :
    ((rows.foldl learnOwner owners).map Prod.fst).Nodup ∧
      ∀ name, name ∈ (rows.foldl learnOwner owners).map Prod.fst ↔
        name ∈ owners.map Prod.fst ∨ name ∈ rows.map (·.name) := by
  induction rows generalizing owners with
  | nil => exact ⟨h, fun name => by simp⟩
  | cons row rows ih =>
    have hkeys : ((learnOwner owners row).map Prod.fst).Nodup ∧
        ∀ name, name ∈ (learnOwner owners row).map Prod.fst ↔
          name ∈ owners.map Prod.fst ∨ name = row.name := by
      cases hlookup : owners.lookup row.name with
      | some owner =>
        have hmem := Dictionary.mem_keys_iff.mpr ⟨owner, hlookup⟩
        simp only [learnOwner, hlookup]
        exact ⟨h, fun name => ⟨.inl, fun h => h.elim id fun heq => heq ▸ hmem⟩⟩
      | none =>
        have hnot : row.name ∉ owners.map Prod.fst := fun hmem => by
          obtain ⟨value, hvalue⟩ := Dictionary.mem_keys_iff.mp hmem
          rw [hlookup] at hvalue
          cases hvalue
        simp only [learnOwner, hlookup, List.map_append, List.map_cons, List.map_nil]
        exact ⟨List.nodup_append.mpr ⟨h, List.nodup_singleton _, fun name hname other hother =>
          fun heq => hnot (List.mem_singleton.mp hother ▸ heq ▸ hname)⟩, fun name => by simp⟩
    obtain ⟨hnodup, hmem⟩ := ih hkeys.1
    refine ⟨hnodup, fun name => ?_⟩
    rw [List.foldl_cons, hmem, hkeys.2, List.map_cons, List.mem_cons, or_assoc]

/-! ## Labels by name -/

theorem lookup_write {V : Type} (dict : List (String × V)) (key : String) (value : V)
    (name : String) :
    (write dict key value).lookup name = if name = key then some value else dict.lookup name := by
  induction dict with
  | nil =>
    rw [write, List.lookup_cons]
    by_cases hname : name = key
    · rw [if_pos hname, hname, beq_self_eq_true]
    · rw [if_neg hname, beq_eq_false_iff_ne.mpr hname]
  | cons entry dict ih =>
    by_cases hentry : entry.1 = key
    · rw [write, if_pos hentry, List.lookup_cons, List.lookup_cons, hentry]
      by_cases hname : name = key
      · rw [if_pos hname, hname, beq_self_eq_true]
      · rw [if_neg hname, beq_eq_false_iff_ne.mpr hname]
    · rw [write, if_neg hentry, List.lookup_cons, List.lookup_cons, ih]
      by_cases hname : name = entry.1
      · have hne : name ≠ key := fun h => hentry (hname.symm.trans h)
        rw [if_neg hne, hname, beq_self_eq_true]
        exact (if_neg hentry).symm
      · rw [beq_eq_false_iff_ne.mpr hname]

theorem nodup_write {V : Type} {dict : List (String × V)} (h : (dict.map Prod.fst).Nodup)
    (key : String) (value : V) : ((write dict key value).map Prod.fst).Nodup := by
  induction dict with
  | nil => exact List.nodup_singleton _
  | cons entry dict ih =>
    obtain ⟨hentry, hdict⟩ := List.nodup_cons.mp h
    by_cases hkey : entry.1 = key
    · rw [write, if_pos hkey, List.map_cons, ← hkey]
      exact h
    · rw [write, if_neg hkey, List.map_cons]
      refine List.nodup_cons.mpr ⟨fun hmem => ?_, ih hdict⟩
      obtain ⟨found, hfound⟩ := Dictionary.mem_keys_iff.mp hmem
      rw [lookup_write, if_neg hkey] at hfound
      exact hentry (Dictionary.mem_keys_iff.mpr ⟨found, hfound⟩)

theorem workByName_spec (segments : List Segment) : ((workByName segments).map Prod.fst).Nodup ∧
      (∀ name segment, (workByName segments).lookup name = some segment →
        segment ∈ segments ∧ segment.name = name) ∧
      ∀ segment ∈ segments, ∃ row, (workByName segments).lookup segment.name = some row := by
  have hfold : ∀ (rows : List Segment) (dict : List (String × Segment)), (dict.map Prod.fst).Nodup →
      let after := rows.foldl (fun dict segment => write dict segment.name segment) dict
      (after.map Prod.fst).Nodup ∧ (∀ name segment, after.lookup name = some segment →
          dict.lookup name = some segment ∨ segment ∈ rows ∧ segment.name = name) ∧
        ∀ name, (∃ row, dict.lookup name = some row) ∨ name ∈ rows.map (·.name) →
          ∃ row, after.lookup name = some row := by
    intro rows
    induction rows with
    | nil =>
      exact fun dict h => ⟨h, fun name segment hlookup => .inl hlookup,
        fun name hname => hname.elim id fun h => (List.not_mem_nil h).elim⟩
    | cons row rows ih =>
      intro dict h
      obtain ⟨hnodup, hrows, hnames⟩ := ih _ (nodup_write h row.name row)
      refine ⟨hnodup, fun name segment hlookup => ?_, fun name hname => hnames name ?_⟩
      · rcases hrows name segment hlookup with hlookup | ⟨hmem, hname⟩
        · rw [lookup_write] at hlookup
          split at hlookup
          · next heq =>
            obtain rfl := Option.some.inj hlookup
            exact .inr ⟨List.mem_cons_self, heq.symm⟩
          · exact .inl hlookup
        · exact .inr ⟨List.mem_cons_of_mem _ hmem, hname⟩
      · rw [List.map_cons, List.mem_cons] at hname
        by_cases heq : name = row.name
        · exact .inl ⟨row, by rw [lookup_write, if_pos heq]⟩
        · rcases hname with ⟨found, hfound⟩ | hname | hname
          · exact .inl ⟨found, by rw [lookup_write, if_neg heq, hfound]⟩
          · exact absurd hname heq
          · exact .inr hname
  obtain ⟨hnodup, hrows, hnames⟩ := hfold segments [] List.nodup_nil
  refine ⟨hnodup, fun name segment hlookup => ?_, fun segment hsegment =>
    hnames segment.name (.inr (List.mem_map_of_mem hsegment))⟩
  rcases hrows name segment hlookup with hnone | hmem
  · cases hnone
  · exact hmem

theorem mem_sortedNames {V : Type} {dict : List (String × V)} {name : String} :
    name ∈ sortedNames dict ↔ name ∈ dict.map Prod.fst := List.mem_insertionSort _

theorem nodup_sortedNames {V : Type} {dict : List (String × V)}
    (h : (dict.map Prod.fst).Nodup) : (sortedNames dict).Nodup :=
  (List.perm_insertionSort _ _).nodup_iff.mpr h

theorem sum_filterMap {α β : Type} (l : List α) (o : α → Option β) (g : β → ℚ) :
    ((l.filterMap o).map g).sum = (l.map fun a => ((o a).map g).getD 0).sum := by
  induction l with
  | nil => rfl
  | cons a l ih =>
    rw [List.filterMap_cons, List.map_cons, List.sum_cons, ← ih]
    cases o a with
    | none => exact (zero_add _).symm
    | some b => rfl

/-- A row's value in some floors, zero without the row. -/
def Floors.row (floors : Floors) (name : String) (field : FloorRow → ℚ) : ℚ :=
  ((floors.segments.find? fun row => row.name = name).map field).getD 0

theorem find_filterMap {names : List String} {o : String → Option FloorRow}
    (ho : ∀ name row, o name = some row → row.name = name) (name : String) :
    (names.filterMap o).find? (fun row => row.name = name) =
      if name ∈ names then o name else none := by
  induction names with
  | nil => rfl
  | cons first names ih =>
    rw [List.filterMap_cons]
    by_cases hfirst : name = first
    · subst hfirst
      rw [if_pos List.mem_cons_self]
      cases hrow : o name with
      | none =>
        simp only [ih, hrow, ite_self]
      | some row =>
        simp only [List.find?_cons, ho name row hrow, decide_true]
    · have hmem : name ∈ first :: names ↔ name ∈ names := by
        rw [List.mem_cons, or_iff_right hfirst]
      simp only [hmem]
      cases hrow : o first with
      | none => exact ih
      | some row =>
        have hne : ¬row.name = name := by
          rw [ho first row hrow]
          exact fun h => hfirst h.symm
        simp only [List.find?_cons, hne, decide_false]
        exact ih

/-! ## Floors -/

section floors

variable (peak : String → ℚ) (bandwidthGbps : ℚ) (dtypes : List (String × String))

/-- A row's work in one shape, zero where its label has no such row. -/
def workOf (field : Segment → ℚ) (shape : Shape) (name : String) : ℚ :=
  (((workByName shape.segments).lookup name).map field).getD 0

theorem workOf_unknown (field : Segment → ℚ) {shape : Shape} {name : String}
    (h : ∀ segment ∈ shape.segments, segment.name ≠ name) : workOf field shape name = 0 := by
  cases hlookup : (workByName shape.segments).lookup name with
  | none => rw [workOf, hlookup, Option.map_none, Option.getD_none]
  | some segment =>
    obtain ⟨hmem, hname⟩ := (workByName_spec shape.segments).2.1 name segment hlookup
    exact absurd hname (h segment hmem)

def computeOf (shape : Shape) (name : String) : ℚ :=
  workOf Segment.flopsTotal shape name / (peak ((dtypes.lookup name).getD "") * 10 ^ 12)

def memoryOf (shape : Shape) (name : String) : ℚ :=
  workOf Segment.bytesTotal shape name / (bandwidthGbps * 10 ^ 9)

def necessaryOf (shape : Shape) (name : String) : ℚ :=
  max (computeOf peak dtypes shape name) (memoryOf bandwidthGbps shape name)

variable {peak bandwidthGbps dtypes}

theorem zipWith_maps {α : Type} (names : List α) (f : ℚ → ℚ → ℚ) (a b : α → ℚ) :
    List.zipWith f (names.map a) (names.map b) = names.map fun name => f (a name) (b name) := by
  induction names with
  | nil => rfl
  | cons name names ih =>
    rw [List.map_cons, List.map_cons, List.map_cons, List.zipWith_cons_cons, ih]

theorem dot_maps (names : List String) (a s : String → ℚ) :
    dot (names.map a) (names.map s) = (names.map fun name => a name * s name).sum := by
  rw [dot, zipWith_maps]

theorem computeSeconds_shapeRow (names : List String) (shape : Shape) :
    computeSeconds (names.map fun name => peak ((dtypes.lookup name).getD ""))
        (shapeRow names shape) = names.map (computeOf peak dtypes shape) := zipWith_maps names _ _ _

theorem memorySeconds_shapeRow (names : List String) (shape : Shape) :
    memorySeconds bandwidthGbps (shapeRow names shape) =
      names.map (memoryOf bandwidthGbps shape) := by
  rw [memorySeconds, shapeRow, List.map_map]
  rfl

theorem necessarySeconds_shapeRow (names : List String) (shape : Shape) :
    necessarySeconds bandwidthGbps (names.map fun name => peak ((dtypes.lookup name).getD ""))
        (shapeRow names shape) = names.map (necessaryOf peak bandwidthGbps dtypes shape) := by
  rw [necessarySeconds, computeSeconds_shapeRow, memorySeconds_shapeRow, zipWith_maps]
  rfl

theorem sum_bytes_shapeRow (names : List String) (shape : Shape) :
    (shapeRow names shape).bytes.sum / (bandwidthGbps * 10 ^ 9) =
      (names.map (memoryOf bandwidthGbps shape)).sum := by
  have hmap : names.map (memoryOf bandwidthGbps shape) = names.map fun name =>
      workOf Segment.bytesTotal shape name * (bandwidthGbps * 10 ^ 9)⁻¹ :=
    List.map_congr_left fun name _ => div_eq_mul_inv _ _
  rw [hmap, List.sum_map_mul_right, div_eq_mul_inv]
  rfl

/-- A stage's fused floor of one shape follows what binds the whole shape. -/
def fusedOf (peak : String → ℚ) (bandwidthGbps : ℚ) (dtypes : List (String × String))
    (names : List String) (shape : Shape) (s : String → ℚ) : ℚ :=
  if (names.map (memoryOf bandwidthGbps shape)).sum ≤ (names.map (computeOf peak dtypes shape)).sum
  then (names.map fun name => computeOf peak dtypes shape name * s name).sum
  else (names.map fun name => memoryOf bandwidthGbps shape name * s name).sum

theorem stageView_fused (names : List String) (shapes : List Shape) (s : String → ℚ) :
    (stageView peak bandwidthGbps names dtypes (shapes.map (shapeRow names)) (names.map s)).fused =
      (shapes.map fun shape =>
        shape.occurrences * fusedOf peak bandwidthGbps dtypes names shape s).sum := by
  show ((shapes.map (shapeRow names)).map _).sum = _
  rw [List.map_map]
  refine congrArg List.sum (List.map_congr_left fun shape _ => ?_)
  show (shape.occurrences : ℚ) * _ = _
  rw [sum_bytes_shapeRow, computeSeconds_shapeRow, memorySeconds_shapeRow, dot_maps, dot_maps]
  rfl

theorem stageView_segmented (names : List String) (shapes : List Shape) (s : String → ℚ) :
    (stageView peak bandwidthGbps names dtypes (shapes.map (shapeRow names))
      (names.map s)).segmented = (shapes.map fun shape => shape.occurrences * (names.map fun name =>
          necessaryOf peak bandwidthGbps dtypes shape name * s name).sum).sum := by
  show ((shapes.map (shapeRow names)).map _).sum = _
  rw [List.map_map]
  refine congrArg List.sum (List.map_congr_left fun shape _ => ?_)
  show (shape.occurrences : ℚ) * _ = _
  rw [necessarySeconds_shapeRow, dot_maps]

/-- A row's total over the shapes. -/
def total (shapes : List Shape) (f : Shape → String → ℚ) (name : String) : ℚ :=
  (shapes.map fun shape => shape.occurrences * f shape name).sum

theorem aggregate_eq {names : List String} {shapes : List Shape} {values : ShapeRow → List ℚ}
    {f : Shape → String → ℚ}
    (hvalues : ∀ shape, values (shapeRow names shape) = names.map (f shape))
    {i : Nat} {name : String} (hi : names[i]? = some name) :
    aggregate (shapes.map (shapeRow names)) values i = total shapes f name := by
  rw [aggregate, List.map_map]
  refine congrArg List.sum (List.map_congr_left fun shape _ => ?_)
  show (shape.occurrences : ℚ) * (values (shapeRow names shape)).getD i 0 = _
  rw [hvalues, List.getD_eq_getElem?_getD, List.getElem?_map, hi]
  rfl

theorem stageView_segments (names : List String) (shapes : List Shape) (s : String → ℚ) :
    (stageView peak bandwidthGbps names dtypes (shapes.map (shapeRow names))
      (names.map s)).segments = names.filterMap fun name =>
        if 0 < s name then
          some ⟨name, total shapes (workOf Segment.flopsTotal) name * s name,
            total shapes (workOf Segment.bytesTotal) name * s name, (dtypes.lookup name).getD "",
            total shapes (necessaryOf peak bandwidthGbps dtypes) name * s name⟩
        else none := by
  have hcongr : ∀ (g : String × Nat → Option FloorRow) (o : String → Option FloorRow),
      (∀ entry ∈ names.zipIdx, g entry = o entry.1) →
        names.zipIdx.filterMap g = names.filterMap o := by
    intro g o h
    calc names.zipIdx.filterMap g = names.zipIdx.filterMap (o ∘ Prod.fst) := List.filterMap_congr h
      _ = (names.zipIdx.map Prod.fst).filterMap o := (List.filterMap_map ..).symm
      _ = names.filterMap o := by rw [List.zipIdx_map_fst]
  refine hcongr _ _ ?_
  rintro ⟨name, i⟩ hentry
  have hi : names[i]? = some name := List.mk_mem_zipIdx_iff_getElem?.mp hentry
  have hs : (names.map s).getD i 0 = s name := by
    rw [List.getD_eq_getElem?_getD, List.getElem?_map, hi]
    rfl
  have hflops : aggregate (shapes.map (shapeRow names)) (·.flops) i =
      total shapes (workOf Segment.flopsTotal) name := aggregate_eq (fun _ => rfl) hi
  have hbytes : aggregate (shapes.map (shapeRow names)) (·.bytes) i =
      total shapes (workOf Segment.bytesTotal) name := aggregate_eq (fun _ => rfl) hi
  simp only [hs, hflops, hbytes, aggregate_eq (necessarySeconds_shapeRow names) hi]

theorem labelPayload_spec {defaultDtype : String} {names : List String} (hnames : names.Nodup)
    {shape : Shape} (hsub : ∀ segment ∈ shape.segments, segment.name ∈ names)
    (hdtypes : ∀ segment ∈ shape.segments,
      dtypes.lookup segment.name = some (segment.computeDtype.getD defaultDtype)) :
    let payload := labelPayload peak bandwidthGbps defaultDtype shape.segments
    payload.fused = max (names.map (computeOf peak dtypes shape)).sum
        (names.map (memoryOf bandwidthGbps shape)).sum ∧
      payload.segmented = (names.map (necessaryOf peak bandwidthGbps dtypes shape)).sum ∧
      ∀ name, payload.row name FloorRow.flops = workOf Segment.flopsTotal shape name ∧
        payload.row name FloorRow.bytes = workOf Segment.bytesTotal shape name ∧
        payload.row name FloorRow.necessary = necessaryOf peak bandwidthGbps dtypes shape name := by
  obtain ⟨hnodup, hrows, hkeys⟩ := workByName_spec shape.segments
  set work := workByName shape.segments with hwork
  have hsorted := nodup_sortedNames hnodup
  have hin : ∀ name ∈ sortedNames work, name ∈ names := fun name hname => by
    obtain ⟨segment, hlookup⟩ := Dictionary.mem_keys_iff.mp (mem_sortedNames.mp hname)
    obtain ⟨hmem, rfl⟩ := hrows name segment hlookup
    exact hsub segment hmem
  have hnone : ∀ name, name ∉ sortedNames work → work.lookup name = none := fun name hname => by
    cases hlookup : work.lookup name with
    | none => rfl
    | some segment =>
      exact absurd (mem_sortedNames.mpr (Dictionary.mem_keys_iff.mpr ⟨segment, hlookup⟩)) hname
  -- a label's entry under a name, and what is read off it
  set entry : String → Option (ℚ × FloorRow) := fun name => (work.lookup name).map fun segment =>
    (segment.flopsTotal / (peak (segment.computeDtype.getD defaultDtype) * 10 ^ 12),
      FloorRow.mk name segment.flopsTotal segment.bytesTotal
        (segment.computeDtype.getD defaultDtype)
        (max (segment.flopsTotal / (peak (segment.computeDtype.getD defaultDtype) * 10 ^ 12))
          (segment.bytesTotal / (bandwidthGbps * 10 ^ 9)))) with hentry
  have hvalue : ∀ name, ((entry name).map Prod.fst).getD 0 = computeOf peak dtypes shape name ∧
      ((entry name).map fun row => row.2.flops).getD 0 = workOf Segment.flopsTotal shape name ∧
      ((entry name).map fun row => row.2.bytes).getD 0 = workOf Segment.bytesTotal shape name ∧
      ((entry name).map fun row => row.2.necessary).getD 0 =
        necessaryOf peak bandwidthGbps dtypes shape name := by
    intro name
    simp only [hentry, necessaryOf, computeOf, memoryOf, workOf, ← hwork]
    cases hlookup : work.lookup name with
    | none => simp
    | some segment =>
      obtain ⟨hmem, rfl⟩ := hrows name segment hlookup
      simp [hdtypes segment hmem]
  have hzero : ∀ name, name ∉ sortedNames work → computeOf peak dtypes shape name = 0 ∧
      workOf Segment.bytesTotal shape name = 0 ∧
      necessaryOf peak bandwidthGbps dtypes shape name = 0 := by
    intro name hname
    obtain ⟨hcompute, -, hbytes, hnecessary⟩ := hvalue name
    have hempty : entry name = none := by simp only [hentry, hnone name hname, Option.map_none]
    rw [hempty] at hcompute hbytes hnecessary
    exact ⟨hcompute.symm, hbytes.symm, hnecessary.symm⟩
  have hsum : ∀ (g : ℚ × FloorRow → ℚ) (f : String → ℚ),
      (∀ name, ((entry name).map g).getD 0 = f name) →
      (∀ name, name ∉ sortedNames work → f name = 0) →
      (((sortedNames work).filterMap entry).map g).sum = (names.map f).sum := by
    intro g f hg hf
    rw [sum_filterMap, List.map_congr_left fun name _ => hg name]
    exact (Dictionary.sum_superset hnames hsorted hin fun name _ hname => hf name hname).symm
  have hrow : ∀ name (field : FloorRow → ℚ),
      (labelPayload peak bandwidthGbps defaultDtype shape.segments).row name field =
        ((entry name).map fun row => field row.2).getD 0 := by
    intro name field
    have hsegments : (labelPayload peak bandwidthGbps defaultDtype shape.segments).segments =
        (sortedNames work).filterMap fun name => (entry name).map Prod.snd :=
      List.map_filterMap ..
    rw [Floors.row, hsegments, find_filterMap]
    · split
      · rw [Option.map_map]
        rfl
      · next hname =>
        have hempty : entry name = none := by
          simp only [hentry, hnone name hname, Option.map_none]
        rw [hempty]
        rfl
    · intro name row hsome
      obtain ⟨pair, hpair, rfl⟩ := Option.map_eq_some_iff.mp hsome
      obtain ⟨segment, -, rfl⟩ := Option.map_eq_some_iff.mp hpair
      rfl
  refine ⟨?_, ?_, fun name => ⟨?_, ?_, ?_⟩⟩
  · show max (((sortedNames work).filterMap entry).map Prod.fst).sum
      ((((sortedNames work).filterMap entry).map fun row => row.2.bytes).sum /
        (bandwidthGbps * 10 ^ 9)) = _
    rw [hsum _ _ (fun name => (hvalue name).1) fun name hname => (hzero name hname).1,
      hsum _ _ (fun name => (hvalue name).2.2.1) fun name hname => (hzero name hname).2.1]
    congr 1
    exact sum_bytes_shapeRow names shape
  · exact hsum _ _ (fun name => (hvalue name).2.2.2) fun name hname => (hzero name hname).2.2
  · rw [hrow, (hvalue name).2.1]
  · rw [hrow, (hvalue name).2.2.1]
  · rw [hrow, (hvalue name).2.2.2]

end floors

end PipelineStages

end ServingSim
