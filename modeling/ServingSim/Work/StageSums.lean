import ServingSim.Work.StageShares

/-
  The floors of the stages add up to the whole model's.

  Whatever the stages have learned their shares from, `Shared` says what the sums need: a
  name's shares sum to one, and the rows of the shapes stand under the names with their
  precisions.

  What is proved:
    1. `stage_payload_sum` — the stage payloads of a label whose rows have distinct names.
    2. `stage_views_sum` — the stages' floors of a group of shapes.
-/

namespace ServingSim

namespace PipelineStages

section floors

variable {peak : String → ℚ} {bandwidthGbps : ℚ} {dtypes : List (String × String)}

/-! ## Over the stages -/

theorem sum_swap {α β : Type} (xs : List α) (ys : List β) (f : α → β → ℚ) :
    (xs.map fun x => (ys.map fun y => f x y).sum).sum =
      (ys.map fun y => (xs.map fun x => f x y).sum).sum := by
  induction xs with
  | nil => simp
  | cons x xs ih => simp only [List.map_cons, List.sum_cons, ih, List.sum_map_add]

theorem sum_occurrences {α : Type} {views : List α} {shapes : List Shape} {part : α → Shape → ℚ}
    {whole : Shape → ℚ}
    (h : ∀ shape ∈ shapes, (views.map fun view => part view shape).sum = whole shape) :
    (views.map fun view => (shapes.map fun shape => shape.occurrences * part view shape).sum).sum =
      (shapes.map fun shape => shape.occurrences * whole shape).sum := by
  rw [sum_swap]
  refine congrArg List.sum (List.map_congr_left fun shape hshape => ?_)
  rw [List.sum_map_mul_left, h shape hshape]

section

variable {α : Type} {views : List α} {names : List String} {s : α → String → ℚ}
  (hone : ∀ name ∈ names, (views.map fun view => s view name).sum = 1)

include α views names s hone

theorem sum_dot (a : String → ℚ) :
    (views.map fun view => (names.map fun name => a name * s view name).sum).sum =
      (names.map a).sum := by
  rw [sum_swap]
  refine congrArg List.sum (List.map_congr_left fun name hname => ?_)
  rw [List.sum_map_mul_left, hone name hname, mul_one]

theorem sum_fusedOf (shape : Shape) :
    (views.map fun view => fusedOf peak bandwidthGbps dtypes names shape (s view)).sum =
      max (names.map (computeOf peak dtypes shape)).sum
        (names.map (memoryOf bandwidthGbps shape)).sum := by
  simp only [fusedOf]
  split
  · next hbound => rw [sum_dot hone, max_eq_left hbound]
  · next hbound => rw [sum_dot hone, max_eq_right (not_le.mp hbound).le]

end

theorem fusedOf_le (names : List String) (shape : Shape) {s : String → ℚ}
    (hs : ∀ name ∈ names, 0 ≤ s name) :
    fusedOf peak bandwidthGbps dtypes names shape s ≤
      (names.map fun name => necessaryOf peak bandwidthGbps dtypes shape name * s name).sum := by
  rw [fusedOf]
  split
  · exact List.sum_le_sum fun name hname =>
      mul_le_mul_of_nonneg_right (le_max_left _ _) (hs name hname)
  · exact List.sum_le_sum fun name hname =>
      mul_le_mul_of_nonneg_right (le_max_right _ _) (hs name hname)

theorem stageView_row {names : List String} (shapes : List Shape) {s : String → ℚ} (name : String)
    (hs : 0 ≤ s name) (hname : name ∈ names ∨ s name = 0) :
    let view :=
      stageView peak bandwidthGbps names dtypes (shapes.map (shapeRow names)) (names.map s)
    view.row name FloorRow.flops = total shapes (workOf Segment.flopsTotal) name * s name ∧
      view.row name FloorRow.bytes = total shapes (workOf Segment.bytesTotal) name * s name ∧
      view.row name FloorRow.necessary =
        total shapes (necessaryOf peak bandwidthGbps dtypes) name * s name := by
  intro view
  have hfind : view.segments.find? (fun row => row.name = name) =
      if 0 < s name then
        some ⟨name, total shapes (workOf Segment.flopsTotal) name * s name,
          total shapes (workOf Segment.bytesTotal) name * s name, (dtypes.lookup name).getD "",
          total shapes (necessaryOf peak bandwidthGbps dtypes) name * s name⟩
      else none := by
    rw [stageView_segments, find_filterMap]
    · split
      · rfl
      · next hnot =>
        rw [hname.resolve_left hnot, if_neg (lt_irrefl _)]
    · intro name row hrow
      split at hrow
      · obtain rfl := Option.some.inj hrow
        rfl
      · cases hrow
  by_cases hpos : 0 < s name
  · rw [if_pos hpos] at hfind
    simp only [Floors.row, hfind, Option.map_some, Option.getD_some, and_self]
  · have hzero : s name = 0 := le_antisymm (not_lt.mp hpos) hs
    rw [if_neg hpos] at hfind
    simp only [Floors.row, hfind, Option.map_none, Option.getD_none, hzero, mul_zero, and_self]

/-- A learned share, zero for what was not learned. -/
def shareOf (view : StageShares) (name : String) : ℚ := (view.shareByName.lookup name).getD 0

section

variable {model : Model} {owners : List (String × Segment)} {view : StageShares}
  (h : Knows model owners view)

include model owners view h

theorem vector_spec {names : List String}
    (hnames : ∀ name ∈ names, name ∈ owners.map Prod.fst) :
    view.vector names = .ok (names.map (shareOf view)) := by
  refine mapM_eq_ok_of_forall fun name hname => ?_
  obtain ⟨owner, howner⟩ := Dictionary.mem_keys_iff.mp (hnames name hname)
  rcases Dictionary.lookup_forall₂ (fun _ _ hQ => hQ.1) h name with
    ⟨hnone, -⟩ | ⟨_, entry, -, -, -, -, hshare⟩
  · rw [howner] at hnone
    cases hnone
  · simp only [hshare, shareOf, Option.getD_some]

theorem shareOf_eq {name : String} {owner : Segment}
    (howner : owners.lookup name = some owner) :
    shareOf view name = shareAt model owner view.layers := by
  rcases Dictionary.lookup_forall₂ (fun _ _ hQ => hQ.1) h name with
    ⟨hnone, -⟩ | ⟨found, entry, hentry, -, -, hfound, hshare⟩
  · rw [howner] at hnone
    cases hnone
  · rw [howner] at hfound
    obtain rfl := Option.some.inj hfound
    rw [shareOf, hshare, Option.getD_some, shareAt, hentry.2]

theorem shareOf_unknown {name : String} (hname : name ∉ owners.map Prod.fst) :
    shareOf view name = 0 := by
  rcases Dictionary.lookup_forall₂ (fun _ _ hQ => hQ.1) h name with
    ⟨-, hnone⟩ | ⟨_, _, -, -, -, howner, -⟩
  · rw [shareOf, hnone, Option.getD_none]
  · exact absurd (Dictionary.mem_keys_iff.mpr ⟨_, howner⟩) hname

end

end floors

/-- The whole model's label, weighted by the shapes' occurrences. -/
def wholeModel (peak : String → ℚ) (bandwidthGbps : ℚ) (defaultDtype : String)
    (shapes : List Shape) (f : Floors → ℚ) : ℚ :=
  (shapes.map fun shape =>
    shape.occurrences * f (labelPayload peak bandwidthGbps defaultDtype shape.segments)).sum

/-! ## What the sums need -/

/-- The names' shares sum to one, and the rows of the shapes are under the names. -/
structure Shared (defaultDtype : String) (shapes : List Shape) (views : List StageShares)
    (names : List String) (dtypes : List (String × String)) : Prop where
  nodup : names.Nodup
  rows : ∀ shape ∈ shapes, ∀ segment ∈ shape.segments, segment.name ∈ names ∧
    dtypes.lookup segment.name = some (segment.computeDtype.getD defaultDtype)
  one : ∀ name ∈ names, (views.map fun view => shareOf view name).sum = 1
  nonneg : ∀ view ∈ views, ∀ name, 0 ≤ shareOf view name
  unknown : ∀ view ∈ views, ∀ name, name ∉ names → shareOf view name = 0

theorem shared_of_knows {model : Model} (hmodel : model.Declared) {poolTag : String}
    {ranges : List (Int × Int)} (htiles : checkTiles poolTag ranges model = .ok ())
    (hne : ranges ≠ []) {defaultDtype : String} {shapes : List Shape}
    (hplaced : ∀ segment ∈ shapes.flatMap (·.segments), Placed model ranges segment)
    {owners : List (String × Segment)} (howners : OwnersIn (shapes.flatMap (·.segments)) owners)
    {views : List StageShares} (hlayers : views.map (·.layers) = ranges)
    (hknows : ∀ view ∈ views, Knows model owners view) {names : List String}
    (hnodup : names.Nodup) (hnames : ∀ name, name ∈ names ↔ name ∈ owners.map Prod.fst)
    {dtypes : List (String × String)}
    (hrows : ∀ shape ∈ shapes, ∀ segment ∈ shape.segments, segment.name ∈ names ∧
      dtypes.lookup segment.name = some (segment.computeDtype.getD defaultDtype)) :
    Shared defaultDtype shapes views names dtypes where
  nodup := hnodup
  rows := hrows
  one := by
    intro name hname
    obtain ⟨owner, hlookup⟩ := Dictionary.mem_keys_iff.mp ((hnames name).mp hname)
    have hin := (howners _ (Dictionary.mem_of_lookup hlookup)).1
    calc (views.map fun view => shareOf view name).sum
        = (views.map fun view => shareAt model owner view.layers).sum :=
          congrArg List.sum (List.map_congr_left fun view hview =>
            shareOf_eq (hknows view hview) hlookup)
      _ = (ranges.map (shareAt model owner)).sum := by
          rw [← hlayers, List.map_map]
          rfl
      _ = 1 := sum_shareAt hmodel htiles hne (hplaced owner hin)
  nonneg := by
    intro view hview name
    cases hlookup : owners.lookup name with
    | some owner =>
      rw [shareOf_eq (hknows view hview) hlookup]
      exact shareAt_nonneg hmodel _ _
    | none =>
      refine (shareOf_unknown (hknows view hview) fun hmem => ?_).ge
      obtain ⟨owner, howner⟩ := Dictionary.mem_keys_iff.mp hmem
      rw [hlookup] at howner
      cases howner
  unknown := fun view hview name hname =>
    shareOf_unknown (hknows view hview) (mt (hnames name).mpr hname)

section shared

variable {peak : String → ℚ} {bandwidthGbps : ℚ} {defaultDtype : String} {shapes : List Shape}
  {views : List StageShares} {names : List String} {dtypes : List (String × String)}

/-- The floors of all stages. -/
def sharedFloors (peak : String → ℚ) (bandwidthGbps : ℚ) (shapes : List Shape)
    (views : List StageShares) (names : List String) (dtypes : List (String × String)) :
    List Floors :=
  views.map fun view => stageView peak bandwidthGbps names dtypes (shapes.map (shapeRow names))
    (names.map (shareOf view))

section

variable (h : Shared defaultDtype shapes views names dtypes)

include h

theorem Shared.sum_fused :
    ((sharedFloors peak bandwidthGbps shapes views names dtypes).map (·.fused)).sum =
      wholeModel peak bandwidthGbps defaultDtype shapes (·.fused) := by
  have hfused : (sharedFloors peak bandwidthGbps shapes views names dtypes).map (·.fused) =
      views.map fun view => (shapes.map fun shape => shape.occurrences *
        fusedOf peak bandwidthGbps dtypes names shape (shareOf view)).sum := by
    rw [sharedFloors, List.map_map]
    exact List.map_congr_left fun view _ => stageView_fused names shapes (shareOf view)
  rw [hfused]
  refine sum_occurrences fun shape hshape => ?_
  rw [sum_fusedOf h.one]
  exact (labelPayload_spec h.nodup
      (fun segment hsegment => (h.rows shape hshape segment hsegment).1)
    fun segment hsegment => (h.rows shape hshape segment hsegment).2).1.symm

theorem Shared.sum_segmented :
    ((sharedFloors peak bandwidthGbps shapes views names dtypes).map (·.segmented)).sum =
      wholeModel peak bandwidthGbps defaultDtype shapes (·.segmented) := by
  have hsegmented : (sharedFloors peak bandwidthGbps shapes views names dtypes).map
      (·.segmented) = views.map fun view => (shapes.map fun shape => shape.occurrences *
        (names.map fun name =>
          necessaryOf peak bandwidthGbps dtypes shape name * shareOf view name).sum).sum := by
    rw [sharedFloors, List.map_map]
    exact List.map_congr_left fun view _ => stageView_segmented names shapes (shareOf view)
  rw [hsegmented]
  refine sum_occurrences fun shape hshape => ?_
  rw [sum_dot h.one]
  exact (labelPayload_spec h.nodup
      (fun segment hsegment => (h.rows shape hshape segment hsegment).1)
    fun segment hsegment => (h.rows shape hshape segment hsegment).2).2.1.symm

theorem Shared.workOf_eq_zero (field : Segment → ℚ) {name : String} (hname : name ∉ names) :
    ∀ shape ∈ shapes, workOf field shape name = 0 := fun shape hshape =>
  workOf_unknown field fun segment hsegment heq =>
    hname (heq ▸ (h.rows shape hshape segment hsegment).1)

theorem Shared.sum_total {name : String}
    {f : Shape → String → ℚ} (hf : name ∉ names → ∀ shape ∈ shapes, f shape name = 0) :
    (views.map fun view => total shapes f name * shareOf view name).sum = total shapes f name := by
  rw [List.sum_map_mul_left]
  by_cases hname : name ∈ names
  · rw [h.one name hname, mul_one]
  · have hzero : total shapes f name = 0 := List.sum_eq_zero fun x hx => by
      obtain ⟨shape, hshape, rfl⟩ := List.mem_map.mp hx
      rw [hf hname shape hshape, mul_zero]
    rw [hzero, zero_mul]

theorem Shared.sum_field {name : String}
    {field : FloorRow → ℚ} {f : Shape → String → ℚ}
    (hstage : ∀ view ∈ views, (stageView peak bandwidthGbps names dtypes
      (shapes.map (shapeRow names)) (names.map (shareOf view))).row name field =
        total shapes f name * shareOf view name)
    (hzero : name ∉ names → ∀ shape ∈ shapes, f shape name = 0)
    (hlabel : ∀ shape ∈ shapes,
      (labelPayload peak bandwidthGbps defaultDtype shape.segments).row name field = f shape name) :
    ((sharedFloors peak bandwidthGbps shapes views names dtypes).map fun stage =>
      stage.row name field).sum =
        wholeModel peak bandwidthGbps defaultDtype shapes fun label => label.row name field := by
  rw [sharedFloors, List.map_map, wholeModel]
  calc (views.map ((fun stage : Floors => stage.row name field) ∘ fun view =>
          stageView peak bandwidthGbps names dtypes (shapes.map (shapeRow names))
            (names.map (shareOf view)))).sum
      = (views.map fun view => total shapes f name * shareOf view name).sum :=
        congrArg List.sum (List.map_congr_left hstage)
    _ = total shapes f name := h.sum_total hzero
    _ = _ := congrArg List.sum (List.map_congr_left fun shape hshape => by
        rw [hlabel shape hshape])

theorem Shared.sum_row (name : String) :
    ∀ field ∈ [FloorRow.flops, FloorRow.bytes, FloorRow.necessary],
      ((sharedFloors peak bandwidthGbps shapes views names dtypes).map fun stage =>
        stage.row name field).sum =
          wholeModel peak bandwidthGbps defaultDtype shapes fun label => label.row name field := by
  have hstage := fun view (hview : view ∈ views) =>
    @stageView_row peak bandwidthGbps dtypes names shapes (shareOf view) name
      (h.nonneg view hview name) (or_iff_not_imp_left.mpr (h.unknown view hview name))
  have hlabel := fun shape (hshape : shape ∈ shapes) =>
    (@labelPayload_spec peak bandwidthGbps dtypes defaultDtype names h.nodup shape
      (fun segment hsegment => (h.rows shape hshape segment hsegment).1)
      fun segment hsegment => (h.rows shape hshape segment hsegment).2).2.2 name
  intro field hfield
  rcases List.mem_cons.mp hfield with rfl | hfield
  · exact h.sum_field (fun view hview => (hstage view hview).1) (h.workOf_eq_zero _)
      fun shape hshape => (hlabel shape hshape).1
  rcases List.mem_cons.mp hfield with rfl | hfield
  · exact h.sum_field (fun view hview => (hstage view hview).2.1) (h.workOf_eq_zero _)
      fun shape hshape => (hlabel shape hshape).2.1
  obtain rfl := List.mem_singleton.mp hfield
  refine h.sum_field (fun view hview => (hstage view hview).2.2) (fun hname shape hshape => ?_)
    fun shape hshape => (hlabel shape hshape).2.2
  rw [necessaryOf, computeOf, memoryOf, h.workOf_eq_zero _ hname shape hshape,
    h.workOf_eq_zero _ hname shape hshape, zero_div, zero_div, max_self]

theorem Shared.fused_le :
    ∀ stage ∈ sharedFloors peak bandwidthGbps shapes views names dtypes,
      stage.fused ≤ stage.segmented := by
  intro stage hstage
  obtain ⟨view, hview, rfl⟩ := List.mem_map.mp hstage
  rw [stageView_fused, stageView_segmented]
  exact List.sum_le_sum fun shape _ => mul_le_mul_of_nonneg_left
    (fusedOf_le names shape fun name _ => h.nonneg view hview name) (Nat.cast_nonneg _)

end

end shared

/-! ## One label -/

section payload

variable {segments : List Segment}

theorem learnOwners_distinct {rows : List Segment} {owners : List (String × Segment)}
    (h : (owners.map Prod.fst ++ rows.map (·.name)).Nodup) :
    rows.foldl learnOwner owners = owners ++ rows.map fun row => (row.name, row) := by
  induction rows generalizing owners with
  | nil => exact (List.append_nil _).symm
  | cons row rows ih =>
    have hnot : owners.lookup row.name = none := Dictionary.lookup_eq_none fun hmem =>
      (List.nodup_append.mp h).2.2 _ hmem _ List.mem_cons_self rfl
    have hlearned : learnOwner owners row = owners ++ [(row.name, row)] := by
      simp only [learnOwner, hnot]
    rw [List.foldl_cons, hlearned, ih]
    · rw [List.map_cons, List.append_assoc]
      rfl
    · rwa [List.map_append, List.append_assoc]

theorem foldl_write_distinct {V : Type} {key : V → String} {rows : List V}
    {dict : List (String × V)} (h : (dict.map Prod.fst ++ rows.map key).Nodup) :
    rows.foldl (fun dict row => write dict (key row) row) dict =
      dict ++ rows.map fun row => (key row, row) := by
  have hwrite : ∀ (dict : List (String × V)) (row : V), key row ∉ dict.map Prod.fst →
      write dict (key row) row = dict ++ [(key row, row)] := by
    intro dict row hnot
    induction dict with
    | nil => rfl
    | cons entry dict ih =>
      rw [List.map_cons, List.mem_cons, not_or] at hnot
      rw [write, if_neg (Ne.symm hnot.1), ih hnot.2, List.cons_append]
  induction rows generalizing dict with
  | nil => exact (List.append_nil _).symm
  | cons row rows ih =>
    have hnot : key row ∉ dict.map Prod.fst := fun hmem =>
      (List.nodup_append.mp h).2.2 _ hmem _ List.mem_cons_self rfl
    rw [List.foldl_cons, hwrite dict row hnot, ih]
    · rw [List.map_cons, List.append_assoc]
      rfl
    · rwa [List.map_append, List.append_assoc]

theorem byName_eq {rows : List FloorRow} (hsorted : (rows.map (·.name)).Pairwise (· ≤ ·))
    (hnodup : (rows.map (·.name)).Nodup) : byName rows = rows := by
  have hdict : rows.foldl (fun dict row => write dict row.name row) [] =
      rows.map fun row => (row.name, row) := foldl_write_distinct hnodup
  rw [byName, hdict, List.map_map]
  exact (congrArg _ (List.map_id rows)).trans (List.pairwise_map.mp hsorted).insertionSort_eq

theorem sublist_filterMap {V : Type} {names : List String} {o : String → Option V}
    {key : V → String}
    (ho : ∀ name row, o name = some row → key row = name) :
    ((names.filterMap o).map key).Sublist names := by
  induction names with
  | nil => exact .slnil
  | cons name names ih =>
    cases hrow : o name with
    | none =>
      rw [List.filterMap_cons_none hrow]
      exact ih.cons _
    | some row =>
      rw [List.filterMap_cons_some hrow, List.map_cons, ho name row hrow]
      exact ih.cons_cons _

def labelNames (segments : List Segment) : List String :=
  (segments.map (·.name)).insertionSort (· ≤ ·)

def labelDtypes (defaultDtype : String) (segments : List Segment) : List (String × String) :=
  (labelNames segments).filterMap fun name =>
    ((workByName segments).lookup name).map fun segment =>
      (name, segment.computeDtype.getD defaultDtype)

theorem mem_labelNames {name : String} : name ∈ labelNames segments ↔
      name ∈ (segments.map fun row => (row.name, row)).map Prod.fst := by
  rw [labelNames, List.mem_insertionSort, List.map_map]
  rfl

theorem nodup_labelNames (hdistinct : (segments.map (·.name)).Nodup) :
    (labelNames segments).Nodup := (List.perm_insertionSort _ _).nodup_iff.mpr hdistinct

theorem lookup_labelDtypes (hdistinct : (segments.map (·.name)).Nodup) (defaultDtype : String)
    {segment : Segment} (hsegment : segment ∈ segments) :
    segment.name ∈ labelNames segments ∧ (labelDtypes defaultDtype segments).lookup segment.name =
        some (segment.computeDtype.getD defaultDtype) := by
  have hname : segment.name ∈ labelNames segments := mem_labelNames.mpr (by
    rw [List.map_map]
    exact List.mem_map_of_mem hsegment)
  have hwork : workByName segments = segments.map fun row => (row.name, row) :=
    foldl_write_distinct hdistinct
  have hfound : (workByName segments).lookup segment.name = some segment := by
    have hkeys : ((workByName segments).map Prod.fst).Nodup := (workByName_spec segments).1
    have hmem : (segment.name, segment) ∈ workByName segments := by
      rw [hwork]
      exact List.mem_map_of_mem hsegment
    exact Dictionary.lookup_of_mem hkeys hmem
  have hkeys : ((labelDtypes defaultDtype segments).map Prod.fst).Nodup := by
    refine List.Nodup.sublist (sublist_filterMap fun name entry hentry => ?_)
      (nodup_labelNames hdistinct)
    obtain ⟨row, -, rfl⟩ := Option.map_eq_some_iff.mp hentry
    rfl
  have hmem : (segment.name, segment.computeDtype.getD defaultDtype) ∈
      labelDtypes defaultDtype segments :=
    List.mem_filterMap.mpr ⟨segment.name, hname, by rw [hfound, Option.map_some]⟩
  exact ⟨hname, Dictionary.lookup_of_mem hkeys hmem⟩

theorem stagePayload_eq {model : Model} (peak : String → ℚ) (bandwidthGbps : ℚ)
    (defaultDtype : String) (hdistinct : (segments.map (·.name)).Nodup)
    {view learned : StageShares} (hlearn : view.learn model segments = .ok learned)
    (hknows : Knows model (segments.map fun row => (row.name, row)) learned) :
    stagePayload peak bandwidthGbps model defaultDtype segments view =
      .ok (stageView peak bandwidthGbps (labelNames segments) (labelDtypes defaultDtype segments)
        ([⟨1, segments⟩].map (shapeRow (labelNames segments)))
        ((labelNames segments).map (shareOf learned))) := by
  have hvector := vector_spec hknows fun name hname => mem_labelNames.mp hname
  have hnames : (labelNames segments).Pairwise (· ≤ ·) := List.pairwise_insertionSort _ _
  set stage := stageView peak bandwidthGbps (labelNames segments)
    (labelDtypes defaultDtype segments) ([⟨1, segments⟩].map (shapeRow (labelNames segments)))
    ((labelNames segments).map (shareOf learned)) with hstage
  have hrows : byName stage.segments = stage.segments := by
    have hsublist : (stage.segments.map (·.name)).Sublist (labelNames segments) := by
      rw [hstage, stageView_segments]
      refine sublist_filterMap fun name row hrow => ?_
      split at hrow
      · obtain rfl := Option.some.inj hrow
        rfl
      · cases hrow
    exact byName_eq (hnames.sublist hsublist) ((nodup_labelNames hdistinct).sublist hsublist)
  simp only [stagePayload, hlearn]
  show (do
    let share ← learned.vector (labelNames segments)
    let stage := stageView peak bandwidthGbps (labelNames segments)
      (labelDtypes defaultDtype segments) [shapeRow (labelNames segments) ⟨1, segments⟩] share
    Except.ok { stage with segments := byName stage.segments }) = Except.ok stage
  rw [hvector]
  show Except.ok { stage with segments := byName stage.segments } = _
  rw [hrows]

theorem stage_payload_sum {model : Model} (hmodel : model.Declared) {poolTag : String}
    {ranges : List (Int × Int)} (htiles : checkTiles poolTag ranges model = .ok ())
    (hne : ranges ≠ []) (peak : String → ℚ) (bandwidthGbps : ℚ) (defaultDtype : String)
    (hplaced : ∀ segment ∈ segments, Placed model ranges segment)
    (hdistinct : (segments.map (·.name)).Nodup) :
    ∃ stages : List Floors, (ranges.map fun range => (⟨range, []⟩ : StageShares)).mapM
        (stagePayload peak bandwidthGbps model defaultDtype segments) = .ok stages ∧
      (stages.map (·.fused)).sum = (labelPayload peak bandwidthGbps defaultDtype segments).fused ∧
      (stages.map (·.segmented)).sum =
        (labelPayload peak bandwidthGbps defaultDtype segments).segmented ∧
      (∀ name, ∀ field ∈ [FloorRow.flops, FloorRow.bytes, FloorRow.necessary],
        (stages.map fun stage => stage.row name field).sum =
          (labelPayload peak bandwidthGbps defaultDtype segments).row name field) ∧
      ∀ stage ∈ stages, stage.fused ≤ stage.segmented := by
  have howners : segments.foldl learnOwner [] = segments.map fun row => (row.name, row) :=
    learnOwners_distinct hdistinct
  obtain ⟨views, -, hforall⟩ : ∃ views, _ ∧ List.Forall₂ (fun view view' =>
      StageShares.learn model view segments = .ok view' ∧ view'.layers = view.layers ∧
        Knows model (segments.map fun row => (row.name, row)) view')
      (ranges.map fun range => (⟨range, []⟩ : StageShares)) views :=
    exists_mapM_ok (f := fun view => view.learn model segments) fun view hview => by
      obtain ⟨range, hrange, rfl⟩ := List.mem_map.mp hview
      obtain ⟨view', hlearn, hlayers, hknows⟩ :=
        @learn_spec model ranges segments hplaced [] ⟨range, []⟩ .nil hrange
      exact ⟨view', hlearn, hlearn, hlayers, howners ▸ hknows⟩
  obtain ⟨hlayers, hknows⟩ := knows_of_forall₂ (hforall.imp fun _ _ h => h.2)
  rw [List.map_map] at hlayers
  have hshared : Shared defaultDtype [⟨1, segments⟩] views (labelNames segments)
      (labelDtypes defaultDtype segments) := by
    refine shared_of_knows hmodel htiles hne ?_ ?_ (hlayers.trans (List.map_id _)) hknows
      (nodup_labelNames hdistinct) (fun _ => mem_labelNames) fun shape hshape =>
        List.mem_singleton.mp hshape ▸ fun segment => lookup_labelDtypes hdistinct defaultDtype
    · rwa [List.flatMap_singleton]
    · rw [List.flatMap_singleton]
      intro entry hentry
      obtain ⟨row, hrow, rfl⟩ := List.mem_map.mp hentry
      exact ⟨hrow, rfl⟩
  have hwhole : ∀ f : Floors → ℚ, wholeModel peak bandwidthGbps defaultDtype [⟨1, segments⟩] f =
      f (labelPayload peak bandwidthGbps defaultDtype segments) := fun f => by
    rw [wholeModel, List.map_singleton, List.sum_singleton, Nat.cast_one, one_mul]
  refine ⟨sharedFloors peak bandwidthGbps [⟨1, segments⟩] views (labelNames segments)
    (labelDtypes defaultDtype segments), ?_, hshared.sum_fused.trans (hwhole _),
    hshared.sum_segmented.trans (hwhole _),
    fun name field hfield => (hshared.sum_row name field hfield).trans (hwhole _),
    hshared.fused_le⟩
  exact mapM_eq_ok_iff.mpr (List.forall₂_map_right_iff.mpr (hforall.imp fun view view' h =>
    stagePayload_eq peak bandwidthGbps defaultDtype hdistinct h.1 h.2.2))

end payload

/-- The shares of a row are non-negative and sum to one over the stages; the stages' floors and
rows sum to the whole model's, and a stage's fused floor is at most its segmented one. -/
theorem stage_views_sum {model : Model} (hmodel : model.Declared) {poolTag : String}
    {ranges : List (Int × Int)} (htiles : checkTiles poolTag ranges model = .ok ())
    (hne : ranges ≠ []) (peak : String → ℚ) (bandwidthGbps : ℚ) (defaultDtype : String)
    (shapes : List Shape)
    (hplaced : ∀ segment ∈ shapes.flatMap (·.segments), Placed model ranges segment)
    (hsame : SameDtypes defaultDtype (shapes.flatMap (·.segments))) :
    (∀ segment ∈ shapes.flatMap (·.segments), (∀ range ∈ ranges, 0 ≤ shareAt model segment range) ∧
        (ranges.map (shareAt model segment)).sum = 1) ∧
    ∃ stages : List Floors, directGroupStageViews peak bandwidthGbps model defaultDtype shapes
        (ranges.map fun range => ⟨range, []⟩) = .ok stages ∧
      stages.length = ranges.length ∧
      (stages.map (·.fused)).sum = wholeModel peak bandwidthGbps defaultDtype shapes (·.fused) ∧
      (stages.map (·.segmented)).sum =
        wholeModel peak bandwidthGbps defaultDtype shapes (·.segmented) ∧
      (∀ name, ∀ field ∈ [FloorRow.flops, FloorRow.bytes, FloorRow.necessary],
        (stages.map fun stage => stage.row name field).sum =
          wholeModel peak bandwidthGbps defaultDtype shapes fun label => label.row name field) ∧
      ∀ stage ∈ stages, stage.fused ≤ stage.segmented := by
  set segments := shapes.flatMap (·.segments) with hsegments
  refine ⟨fun segment hsegment => ⟨fun range _ => shareAt_nonneg hmodel segment range,
    sum_shareAt hmodel htiles hne (hplaced segment hsegment)⟩, ?_⟩
  have hstart : Learnt model ranges defaultDtype segments []
      ⟨ranges.map fun range => ⟨range, []⟩, []⟩ := by
    refine ⟨?_, fun view hview => ?_, .nil, fun entry hentry => (List.not_mem_nil hentry).elim⟩
    · rw [List.map_map]
      exact List.map_id _
    · obtain ⟨range, -, rfl⟩ := List.mem_map.mp hview
      exact .nil
  obtain ⟨learned, hlearned, hlearnt⟩ := learned_spec hplaced hsame
    (fun shape hshape segment hsegment => List.mem_flatMap.mpr ⟨shape, hshape, hsegment⟩) hstart
  obtain ⟨hnodup, hkeys⟩ := @learnOwners_keys segments [] List.nodup_nil
  set owners := segments.foldl learnOwner [] with howners
  set names := sortedNames learned.dtypes with hnames
  -- the names are those of the rows that were learned
  have hsameKeys : learned.dtypes.map Prod.fst = owners.map Prod.fst :=
    (List.forall₂_eq_eq_eq ▸ List.forall₂_map_left_iff.mpr (List.forall₂_map_right_iff.mpr
      (hlearnt.pinned.imp fun _ _ h => h.1.symm)) :
        owners.map Prod.fst = learned.dtypes.map Prod.fst).symm
  have hmemNames : ∀ name, name ∈ names ↔ name ∈ owners.map Prod.fst := fun name => by
    rw [hnames, mem_sortedNames, hsameKeys]
  have hrows : ∀ shape ∈ shapes, ∀ segment ∈ shape.segments, segment.name ∈ names ∧
      learned.dtypes.lookup segment.name = some (segment.computeDtype.getD defaultDtype) := by
    intro shape hshape segment hsegment
    have hin : segment ∈ segments := List.mem_flatMap.mpr ⟨shape, hshape, hsegment⟩
    have hname : segment.name ∈ owners.map Prod.fst :=
      (hkeys _).mpr (.inr (List.mem_map_of_mem hin))
    refine ⟨(hmemNames _).mpr hname, ?_⟩
    rcases Dictionary.lookup_forall₂ (fun _ _ hQ => hQ.1) hlearnt.pinned segment.name with
      ⟨hnone, -⟩ | ⟨owner, entry, hentry, hmem, hkey, -, hdtype⟩
    · obtain ⟨owner, hlookup⟩ := Dictionary.mem_keys_iff.mp hname
      rw [hnone] at hlookup
      cases hlookup
    · obtain ⟨howner, hown⟩ := hlearnt.owners owner hmem
      rw [hdtype, hentry.2, hsame owner.2 howner segment hin (hown.trans hkey)]
  have hshared : Shared defaultDtype shapes learned.views names learned.dtypes :=
    shared_of_knows hmodel htiles hne hplaced hlearnt.owners hlearnt.layers hlearnt.knows
      (nodup_sortedNames (hsameKeys ▸ hnodup)) hmemNames hrows
  refine ⟨sharedFloors peak bandwidthGbps shapes learned.views names learned.dtypes, ?_, ?_,
    hshared.sum_fused, hshared.sum_segmented, hshared.sum_row, hshared.fused_le⟩
  · rw [directGroupStageViews, hlearned]
    refine mapM_eq_ok_of_forall fun view hview => ?_
    rw [vector_spec (hlearnt.knows view hview) fun name hname => (hmemNames name).mp hname]
    rfl
  · rw [sharedFloors, List.length_map, ← hlearnt.layers, List.length_map]

/-- Three layers of two kinds, one of them between the others. -/
def hybrid : Model := ⟨"hybrid", [⟨"kda", 2, none, none, [0, 2]⟩, ⟨"dsa", 1, none, none, [1]⟩]⟩

/-- A forward of the model, with the rows of both kinds. -/
def hybridForward (occurrences : Nat) (tokens : ℚ) : Shape :=
  ⟨occurrences, [⟨embeddingSegment, 0, tokens, 1, none, none⟩,
    ⟨"kda_ffn", 8 * tokens, 16, 2, some "fp8", some "kda"⟩,
    ⟨"dsa_ffn", 4 * tokens, 32, 1, none, some "dsa"⟩, ⟨"lm_head", 16 * tokens, 64, 1, none, none⟩]⟩

theorem hybrid_declared : hybrid.Declared where
  layers := by
    intro stack hstack
    simp only [Model.body, hybrid, List.filter_cons, List.filter_nil, decide_true, if_true,
      List.mem_cons, List.not_mem_nil, or_false] at hstack
    rcases hstack with rfl | rfl
    · exact List.cons_ne_nil _ _
    · exact List.cons_ne_nil _ _
  checked := by decide +kernel

theorem hybridForward_rows (occurrences : Nat) (tokens : ℚ) :
    ∀ segment ∈ (hybridForward occurrences tokens).segments,
      Placed hybrid [(0, 1), (1, 3)] segment ∧
        segment.computeDtype.getD "bf16" = if segment.name = "kda_ffn" then "fp8" else "bf16" := by
  intro segment hsegment
  have hplaced : hybrid.pipelineStageShare segment (0, 1) = .ok (shareAt hybrid segment (0, 1)) →
      hybrid.pipelineStageShare segment (1, 3) = .ok (shareAt hybrid segment (1, 3)) →
      Placed hybrid [(0, 1), (1, 3)] segment := by
    intro hfirst hsecond range hrange
    rcases List.mem_cons.mp hrange with rfl | hrange
    · exact hfirst
    · obtain rfl := List.mem_singleton.mp hrange
      exact hsecond
  simp only [hybridForward, List.mem_cons, List.not_mem_nil, or_false] at hsegment
  rcases hsegment with rfl | rfl | rfl | rfl
  · exact ⟨hplaced rfl rfl, rfl⟩
  · exact ⟨hplaced rfl rfl, rfl⟩
  · exact ⟨hplaced rfl rfl, rfl⟩
  · exact ⟨hplaced rfl rfl, rfl⟩

/-- Two forwards of the hybrid model on a stage of one layer and a stage of two. -/
theorem stage_views_sum_hybrid : ∃ stages : List Floors,
      directGroupStageViews (fun _ => 1) 1000 hybrid "bf16" [hybridForward 1 1, hybridForward 3 100]
        [⟨(0, 1), []⟩, ⟨(1, 3), []⟩] = .ok stages ∧
      (stages.map (·.fused)).sum = wholeModel (fun _ => 1) 1000 "bf16"
        [hybridForward 1 1, hybridForward 3 100] (·.fused) := by
  have hrows : ∀ segment ∈ [hybridForward 1 1, hybridForward 3 100].flatMap (·.segments),
      Placed hybrid [(0, 1), (1, 3)] segment ∧
        segment.computeDtype.getD "bf16" = if segment.name = "kda_ffn" then "fp8" else "bf16" := by
    intro segment hsegment
    obtain ⟨shape, hshape, hsegment⟩ := List.mem_flatMap.mp hsegment
    rcases List.mem_cons.mp hshape with rfl | hshape
    · exact hybridForward_rows 1 1 segment hsegment
    · obtain rfl := List.mem_singleton.mp hshape
      exact hybridForward_rows 3 100 segment hsegment
  obtain ⟨-, stages, hstages, -, hfused, -⟩ := stage_views_sum hybrid_declared
    (by decide +kernel : checkTiles "main" [(0, 1), (1, 3)] hybrid = .ok ())
    (List.cons_ne_nil _ _) (fun _ => 1) 1000 "bf16" [hybridForward 1 1, hybridForward 3 100]
    (fun segment hsegment => (hrows segment hsegment).1)
    fun segment hsegment segment' hsegment' h => by
      rw [(hrows segment hsegment).2, (hrows segment' hsegment').2, h]
  exact ⟨stages, hstages, hfused⟩

end PipelineStages

end ServingSim
