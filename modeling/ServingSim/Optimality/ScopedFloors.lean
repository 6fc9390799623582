import ServingSim.Optimality.Attribution
import ServingSim.Optimality.Scoped
import ServingSim.Work.StageShares

/-
  When the scoped floors are the label's.

  Selecting the root of the only tree of a worker selects every row of its label, so the two
  reports weigh the same work, in the same order of names. They part on the peak: the label
  prices a row at the row's own precision, the scoped report prices every row at the pool's.
  They also round apart: the label corrects its sum of rooflines and adds quotients, the
  scoped report does not and divides its sum of flops once.

  What is proved:
    1. `scoped_floors_agree` — the scoped report succeeds on a root exactly when the maps load,
       the GPU has a peak at the pool's precision and no row is at two leaves; its floors are
       the label's when every row runs at the pool's peak or is bound by memory, and no sum that
       counts is rounded.
-/

namespace ServingSim

namespace Optimality

/-! ## Names -/

theorem nodup_nameSet (names : List String) : (nameSet names).Nodup :=
  (List.perm_insertionSort _ _).nodup_iff.mpr (List.nodup_dedup names)

theorem nameSet_congr {names others : List String}
    (h : ∀ name, name ∈ names ↔ name ∈ others) : nameSet names = nameSet others := by
  have hperm : (nameSet names).Perm (nameSet others) :=
    (List.perm_ext_iff_of_nodup (nodup_nameSet _) (nodup_nameSet _)).mpr fun name => by
      rw [mem_nameSet, mem_nameSet, h]
  refine hperm.eq_of_pairwise (fun a b _ _ hab hba => le_antisymm hab hba) ?_ ?_
  · exact List.pairwise_insertionSort (· ≤ ·) _
  · exact List.pairwise_insertionSort (· ≤ ·) _

/-! ## Locations -/

theorem kernelLocations_spec (slots : List LeafDesc) (locations : List KernelLocation) :
    (∀ location ∈ slots.foldl addLocation locations, location ∈ locations ∨
      ∃ leaf ∈ slots, location = ⟨leaf.name, leaf.kind, isCommunicationKind leaf.kind⟩) ∧
      ∀ name, name ∈ (slots.foldl addLocation locations).map (·.name) ↔
        name ∈ locations.map (·.name) ∨ name ∈ slots.map (·.name) := by
  induction slots generalizing locations with
  | nil => exact ⟨fun location h => .inl h, fun name => by simp⟩
  | cons leaf slots ih =>
    obtain ⟨hfrom, hnames⟩ := ih (addLocation locations leaf)
    refine ⟨fun location hlocation => ?_, fun name => ?_⟩
    · rcases hfrom location hlocation with hold | ⟨other, hother, rfl⟩
      · rw [addLocation] at hold
        split at hold
        · exact .inl hold
        · rcases List.mem_append.mp hold with hold | hnew
          · exact .inl hold
          · exact .inr ⟨leaf, List.mem_cons_self, List.mem_singleton.mp hnew⟩
      · exact .inr ⟨other, List.mem_cons_of_mem _ hother, rfl⟩
    · rw [List.foldl_cons, hnames, addLocation, List.map_cons, List.mem_cons]
      split
      · next hlisted =>
        constructor
        · rintro (h | h)
          · exact .inl h
          · exact .inr (.inr h)
        · rintro (h | rfl | h)
          · exact .inl h
          · exact .inl hlisted
          · exact .inr h
      · rw [List.map_append, List.mem_append, List.map_singleton, List.mem_singleton, or_assoc]

theorem expected_agrees {doc : ManifestDoc}
    (hlocal : ∀ leaf ∈ doc.slots, isCommunicationKind leaf.kind = false) :
    expectedLocations (kernelLocationsOf doc) = ScopedRun.expectedLeaves doc ∧
      ∀ name, name ∈ ScopedRun.expectedLeaves doc ↔ name ∈ doc.slots.map (·.name) := by
  obtain ⟨hfrom, hnames⟩ := kernelLocations_spec doc.slots []
  have hall : (kernelLocationsOf doc).filter (fun location => !location.isCommunication) =
      kernelLocationsOf doc := List.filter_eq_self.mpr fun location hlocation => by
    rcases hfrom location hlocation with hnil | ⟨leaf, hleaf, rfl⟩
    · cases hnil
    · rw [hlocal leaf hleaf]
      rfl
  have hleaves : doc.slots.filter (fun leaf => !isCommunicationKind leaf.kind) = doc.slots :=
    List.filter_eq_self.mpr fun leaf hleaf => by
      rw [hlocal leaf hleaf]
      rfl
  rw [expectedLocations, ScopedRun.expectedLeaves, hall, hleaves]
  refine ⟨nameSet_congr fun name => ?_, fun name => mem_nameSet⟩
  rw [kernelLocationsOf, hnames, List.map_nil]
  simp

theorem selectLocationMap_agrees {doc : ManifestDoc}
    (hlocal : ∀ leaf ∈ doc.slots, isCommunicationKind leaf.kind = false)
    {maps : List LocationMap} {archType : String} {pipelineStage : Bool}
    {locationMap : LocationMap}
    (h : selectLocationMap maps archType (kernelLocationsOf doc) pipelineStage = .ok locationMap) :
    ∃ whole ∈ maps, ScopedRun.selectLocationMap maps archType doc pipelineStage = .ok whole ∧
      locationMap = whole.retain (ScopedRun.expectedLeaves doc) := by
  rw [selectLocationMap, (expected_agrees hlocal).1] at h
  rw [ScopedRun.selectLocationMap]
  split at h
  · next whole hcandidates =>
    refine ⟨whole, ?_, ?_, (Except.ok.inj h).symm⟩
    · have hmem := hcandidates ▸ List.mem_singleton_self whole
      exact List.mem_of_mem_filter (List.mem_of_mem_filter hmem)
    · simp only [hcandidates]
  · cases h
  · cases h

/-! ## Leaves -/

theorem mem_descendantLeaves {manifest : Manifest} {nodeIdx : Nat} {name : String}
    (h : name ∈ descendantLeaves manifest nodeIdx) : name ∈ manifest.slots.map (·.name) := by
  have hturns : ∀ turns i, ∀ name ∈ ForwardTree.fold (nodeChildren manifest.nodes)
      (leafNames manifest) turns i, name ∈ manifest.slots.map (·.name) := by
    intro turns
    induction turns with
    | zero => exact fun i name hname => (List.not_mem_nil hname).elim
    | succ turns ih =>
      intro i name hname
      rw [ForwardTree.fold, leafNames] at hname
      split at hname
      · rw [Option.mem_toList, Option.map_eq_some_iff] at hname
        obtain ⟨leaf, hleaf, rfl⟩ := hname
        exact List.mem_map_of_mem (List.mem_of_getElem? hleaf)
      · obtain ⟨names, hnames, hmem⟩ := List.mem_flatten.mp hname
        obtain ⟨child, -, rfl⟩ := List.mem_map.mp hnames
        exact ih child name hmem
      · cases hname
  exact hturns _ _ name h

/-- The rows of a location, none where a map has no rule. -/
def rowsAt (locationMap : LocationMap) (location : String) : List String :=
  ((locationMap.locations.find? fun rule => rule.location = location).map (·.semantics)).getD []

theorem find_rule {rules : List LocationRule} (hrules : (rules.map (·.location)).Nodup)
    {rule : LocationRule} (h : rule ∈ rules) :
    rules.find? (fun other => other.location = rule.location) = some rule := by
  cases hfind : rules.find? fun other => other.location = rule.location with
  | none =>
    have hnone := List.find?_eq_none.mp hfind rule h
    simp at hnone
  | some found =>
    have hname : found.location = rule.location := by simpa using List.find?_some hfind
    rw [List.inj_on_of_nodup_map hrules (List.mem_of_find?_eq_some hfind) h hname]

theorem consumeLocation_eq {whole : LocationMap} {expected : List String}
    (hnodup : ((whole.retain expected).locations.map (·.location)).Nodup) {location : String}
    (hexpected : location ∈ expected)
    (hmapped : location ∈ (whole.retain expected).locations.map (·.location))
    (semantics : List String) :
    consumeLocation whole semantics location =
      (rowsAt (whole.retain expected) location).foldlM consumeRow semantics := by
  obtain ⟨rule, hrule, rfl⟩ := List.mem_map.mp hmapped
  have hwhole : rule ∈ whole.locations := List.mem_of_mem_filter hrule
  have hkept : ∀ other ∈ whole.locations, other.location = rule.location → other = rule := by
    intro other hother hname
    refine List.inj_on_of_nodup_map hnodup (List.mem_filter.mpr ⟨hother, ?_⟩) hrule hname
    rw [hname]
    exact decide_eq_true hexpected
  have hlast : whole.locations.reverse.find? (fun other => other.location = rule.location) =
      some rule := by
    cases hfind : whole.locations.reverse.find? fun other => other.location = rule.location with
    | none =>
      have hnone := List.find?_eq_none.mp hfind rule (List.mem_reverse.mpr hwhole)
      simp at hnone
    | some found =>
      have hname : found.location = rule.location := by simpa using List.find?_some hfind
      rw [hkept found (List.mem_reverse.mp (List.mem_of_find?_eq_some hfind)) hname]
  rw [consumeLocation, hlast, rowsAt, find_rule hnodup hrule]
  rfl

theorem consumeRows_iff {rows semantics out : List String} (hsemantics : semantics.Nodup) :
    rows.foldlM consumeRow semantics = .ok out ↔
      (semantics ++ rows).Nodup ∧ out = semantics ++ rows := by
  induction rows generalizing semantics with
  | nil =>
    rw [List.append_nil]
    exact ⟨fun h => ⟨hsemantics, (Except.ok.inj h).symm⟩, fun h => congrArg Except.ok h.2.symm⟩
  | cons row rows ih =>
    rw [List.foldlM_cons, bind_eq_ok_iff]
    simp only [consumeRow, check_then_eq_ok_iff, ensure_eq_ok_iff, Except.ok.injEq]
    have happend : semantics ++ row :: rows = (semantics ++ [row]) ++ rows := by simp
    rw [happend]
    constructor
    · rintro ⟨next, ⟨hrow, rfl⟩, hrest⟩
      refine (ih ?_).mp hrest
      rw [List.nodup_append]
      exact ⟨hsemantics, List.nodup_singleton row, fun name hname other hother heq =>
        hrow (List.mem_singleton.mp hother ▸ heq ▸ hname)⟩
    · rintro ⟨hnodup, rfl⟩
      have hfirst := (List.nodup_append.mp hnodup).1
      refine ⟨_, ⟨fun hmem => ?_, rfl⟩, (ih hfirst).mpr ⟨hnodup, rfl⟩⟩
      exact (List.nodup_append.mp hfirst).2.2 row hmem row (List.mem_singleton_self row) rfl

theorem consumeLocations_eq {whole kept : LocationMap} {locations : List String}
    (h : ∀ location ∈ locations, ∀ semantics, consumeLocation whole semantics location =
      (rowsAt kept location).foldlM consumeRow semantics) (semantics : List String) :
    locations.foldlM (consumeLocation whole) semantics =
      (locations.flatMap (rowsAt kept)).foldlM consumeRow semantics := by
  induction locations generalizing semantics with
  | nil => rfl
  | cons location locations ih =>
    obtain ⟨hlocation, hrest⟩ := List.forall_mem_cons.mp h
    rw [List.foldlM_cons, List.flatMap_cons, List.foldlM_append, hlocation]
    exact bind_congr fun next => ih hrest next

/-! ## Rows -/

/-- The label's row of a name. -/
def rowNamed (segments : List SemanticWork) (name : String) : SemanticWork :=
  (segments.find? fun segment => segment.name = name).getD ⟨name, 0, 0, 0, none⟩

section

variable {segments : List SemanticWork} (hnames : (segments.map (·.name)).Nodup)

include segments hnames

theorem filter_row {segment : SemanticWork} (h : segment ∈ segments) :
    segments.filter (fun other => other.name = segment.name) = [segment] ∧
      rowNamed segments segment.name = segment := by
  induction segments with
  | nil => cases h
  | cons first segments ih =>
    rw [List.map_cons, List.nodup_cons] at hnames
    obtain ⟨hfirst, hrest⟩ := hnames
    rcases List.mem_cons.mp h with rfl | hmem
    · have hnone : segments.filter (fun other => other.name = segment.name) = [] :=
        List.filter_eq_nil_iff.mpr fun other hother hname =>
          hfirst (of_decide_eq_true hname ▸ List.mem_map_of_mem hother)
      rw [List.filter_cons_of_pos (by simp), hnone, rowNamed, List.find?_cons_of_pos (by simp)]
      exact ⟨rfl, rfl⟩
    · have hne : ¬first.name = segment.name := fun heq =>
        hfirst (heq ▸ List.mem_map_of_mem hmem)
      obtain ⟨hfilter, hfind⟩ := ih hrest hmem
      rw [List.filter_cons_of_neg (by simpa using hne), hfilter, rowNamed,
        List.find?_cons_of_neg (by simpa using hne)]
      exact ⟨rfl, hfind⟩

theorem segmentsOf_ok
    {selected : List String} (hselected : ∀ name ∈ selected, name ∈ segments.map (·.name))
    (missing ambiguous : String → String) :
    selected.mapM (segmentOf missing ambiguous segments) =
      .ok (selected.map (rowNamed segments)) := by
  refine mapM_eq_ok_of_forall fun name hname => ?_
  obtain ⟨segment, hsegment, rfl⟩ := List.mem_map.mp (hselected name hname)
  obtain ⟨hfilter, hrow⟩ := filter_row hnames hsegment
  simp only [segmentOf, hfilter, hrow]

theorem checkedSegments_ok (hwork : ∀ segment ∈ segments, 0 ≤ segment.flops ∧ 0 ≤ segment.bytes)
    {selected : List String} (hselected : ∀ name ∈ selected, name ∈ segments.map (·.name)) :
    selected.mapM (checkedSegment segments) = .ok (selected.map (rowNamed segments)) := by
  refine mapM_eq_ok_of_forall fun name hname => ?_
  obtain ⟨segment, hsegment, rfl⟩ := List.mem_map.mp (hselected name hname)
  obtain ⟨hfilter, hrow⟩ := filter_row hnames hsegment
  simp only [checkedSegment, segmentOf, hfilter, hrow, bind_eq_ok_iff, Except.ok.injEq]
  exact ⟨segment, rfl, (), ensure_eq_ok_iff.mpr (hwork segment hsegment), rfl⟩

theorem map_rowNamed :
    (segments.map (·.name)).map (rowNamed segments) = segments := by
  rw [List.map_map]
  exact (List.map_congr_left fun segment hsegment => (filter_row hnames hsegment).2).trans
    (List.map_id _)

end

/-! ## The root -/

/-- A run of one worker with one section. -/
def singleRun (maps : List LocationMap) (poolSpecs : List (String × PoolModelSpec))
    (worker : WorkerKey) (sectionName : String) (manifest : Manifest) (label : IterationLabel)
    (gpuName : String) (gpuSpec : GpuSpec) (staged : Bool) : ScopedRun where
  maps := maps
  poolSpecs := poolSpecs
  hardware := [(worker, gpuName, gpuSpec)]
  manifests := [(worker, ⟨[(sectionName, manifest)]⟩)]
  stages := if staged then [worker] else []
  labels := [(worker, [label])]

/-- The maps and pools that the attribution of the same run reads. -/
def ScopedRun.catalog (run : ScopedRun) : LocationCatalog :=
  ⟨run.maps, run.poolSpecs, run.stages.map Prod.fst⟩

/-- The rows that the leaves of a whole tree name. -/
def leafRows (locationMap : LocationMap) (manifest : Manifest) : List String :=
  (descendantLeaves manifest 0).flatMap (rowsAt locationMap)

theorem selectedSemantics_root {whole : LocationMap} {expected : List String}
    {label : IterationLabel} {locations : List KernelLocation}
    (hconsumes : Consumes (whole.retain expected) locations label.segments)
    (hexpected : expectedLocations locations = expected) {worker : WorkerKey}
    {sectionName : String} {manifest : Manifest}
    (hslots : ∀ name, name ∈ expected ↔ name ∈ manifest.slots.map (·.name))
    (hleaves : ∀ leaf ∈ manifest.slots, leaf.name ∈ descendantLeaves manifest 0) :
    (∀ selected, selectedSemantics whole ⟨[(sectionName, manifest)]⟩ ⟨worker, sectionName, 0⟩ =
      .ok selected ↔ (leafRows (whole.retain expected) manifest).Nodup ∧
        selected = nameSet (leafRows (whole.retain expected) manifest)) ∧
      ∀ name, name ∈ leafRows (whole.retain expected) manifest ↔
        name ∈ label.segments.map (·.name) := by
  have hmapped : ∀ location ∈ descendantLeaves manifest 0, location ∈ expected ∧
      location ∈ (whole.retain expected).locations.map (·.location) := fun location hlocation => by
    have hmem := (hslots location).mpr (mem_descendantLeaves hlocation)
    exact ⟨hmem, (hconsumes.mapped location).mpr (hexpected ▸ hmem)⟩
  refine ⟨fun selected => ?_, fun name => ?_⟩
  · have hlookup : [(sectionName, manifest)].lookup sectionName = some manifest := by
      rw [List.lookup_cons, beq_self_eq_true]
    simp only [selectedSemantics, hlookup, bind_eq_ok_iff, Except.ok.injEq]
    rw [consumeLocations_eq fun location hlocation semantics =>
      consumeLocation_eq hconsumes.locations (hmapped location hlocation).1
        (hmapped location hlocation).2 semantics]
    simp only [consumeRows_iff List.nodup_nil, List.nil_append]
    constructor
    · rintro ⟨rows, ⟨hnodup, rfl⟩, rfl⟩
      exact ⟨hnodup, rfl⟩
    · rintro ⟨hnodup, rfl⟩
      exact ⟨_, ⟨hnodup, rfl⟩, rfl⟩
  · rw [← hconsumes.semantics, leafRows, LocationMap.semantics, List.mem_flatMap, List.mem_flatMap]
    constructor
    · rintro ⟨location, hlocation, hname⟩
      obtain ⟨rule, hrule, rfl⟩ := List.mem_map.mp (hmapped location hlocation).2
      rw [rowsAt, find_rule hconsumes.locations hrule] at hname
      exact ⟨rule, hrule, hname⟩
    · rintro ⟨rule, hrule, hname⟩
      have hlocation := (hconsumes.mapped rule.location).mp (List.mem_map_of_mem hrule)
      rw [hexpected, hslots] at hlocation
      obtain ⟨leaf, hleaf, hleafname⟩ := List.mem_map.mp hlocation
      refine ⟨rule.location, hleafname ▸ hleaves leaf hleaf, ?_⟩
      rw [rowsAt, find_rule hconsumes.locations hrule]
      exact hname

theorem loadLocationMaps_iff {maps loaded : List LocationMap} :
    loadLocationMaps maps = .ok loaded ↔ (∀ locationMap ∈ maps, locationMap.schemaVersion = 1 ∧
      (locationMap.locations.map (·.location)).Nodup) ∧ loaded = maps := by
  simp only [loadLocationMaps, List.forM_eq_forM, check_then_eq_ok_iff, forM_eq_ok_iff,
    ensure_eq_ok_iff, Except.ok.injEq]
  exact and_congr_right fun _ => eq_comm

/-- What a root's rows come to at the pool's peak. -/
def rootFloors (gpuSpec : GpuSpec) (peak : ℚ) (segments : List SemanticWork) : ℚ × ℚ :=
  (Binary64.sum (segments.map fun row => rooflineAt gpuSpec peak row.flops row.bytes),
    rooflineAt gpuSpec peak (Binary64.sum (segments.map (·.flops)))
      (Binary64.sum (segments.map (·.bytes))))

variable {gpuSpec : GpuSpec}

theorem semanticFloorValues_ok {segments : List SemanticWork}
    (hnames : (segments.map (·.name)).Nodup) {dtype : String}
    (hpeak : 0 < gpuSpec.peakTflops dtype) (hbandwidth : 0 < gpuSpec.memBandwidthGbps) :
    semanticFloorValues segments (segments.map (·.name)) gpuSpec dtype =
      .ok (rootFloors gpuSpec (gpuSpec.peakTflops dtype) segments) := by
  simp only [semanticFloorValues, bind_eq_ok_iff, Except.ok.injEq]
  refine ⟨(), ensure_eq_ok_iff.mpr ⟨hpeak, hbandwidth⟩, _,
    segmentsOf_ok hnames (fun name hname => hname) _ _, ?_⟩
  rw [map_rowNamed hnames]
  rfl

theorem computeSemanticFloors_root {maps : List LocationMap}
    {poolSpecs : List (String × PoolModelSpec)} {worker : WorkerKey} {sectionName : String}
    {manifest : Manifest} {label : IterationLabel} {gpuName : String} {gpuSpec : GpuSpec}
    {staged : Bool} {poolSpec : PoolModelSpec} {whole : LocationMap} {kept : LocationMap}
    (hpool : poolSpecs.lookup worker.1 = some poolSpec)
    (hmap : ScopedRun.selectLocationMap maps poolSpec.archType ⟨[(sectionName, manifest)]⟩ staged =
      .ok whole)
    (hbandwidth : 0 < gpuSpec.memBandwidthGbps)
    (hsorted : nameSet (label.segments.map (·.name)) = label.segments.map (·.name))
    (hwork : ∀ segment ∈ label.segments, 0 ≤ segment.flops ∧ 0 ≤ segment.bytes)
    (hselected : ∀ selected, selectedSemantics whole ⟨[(sectionName, manifest)]⟩
      ⟨worker, sectionName, 0⟩ = .ok selected ↔ (leafRows kept manifest).Nodup ∧
        selected = nameSet (leafRows kept manifest))
    (hrows : ∀ name, name ∈ leafRows kept manifest ↔ name ∈ label.segments.map (·.name))
    (r6 r7 : ℚ) :
    (∃ floors, (singleRun maps poolSpecs worker sectionName manifest label gpuName gpuSpec
      staged).computeSemanticFloors [⟨worker, sectionName, 0⟩] = .ok floors ∧
        floors.r6GpuS = r6 ∧ floors.r7GpuS = r7) ↔
      (∀ locationMap ∈ maps, locationMap.schemaVersion = 1 ∧
        (locationMap.locations.map (·.location)).Nodup) ∧
      0 < gpuSpec.peakTflops poolSpec.fallbackDtype ∧ (leafRows kept manifest).Nodup ∧
      rootFloors gpuSpec (gpuSpec.peakTflops poolSpec.fallbackDtype) label.segments = (r6, r7) := by
  set run := singleRun maps poolSpecs worker sectionName manifest label gpuName gpuSpec staged
  have hnames : (label.segments.map (·.name)).Nodup := hsorted ▸ nodup_nameSet _
  have hnameSet : nameSet (leafRows kept manifest) = label.segments.map (·.name) :=
    (nameSet_congr hrows).trans hsorted
  simp only [hnameSet] at hselected
  have hhardware : run.hardware.lookup worker = some (gpuName, gpuSpec) := by
    show List.lookup worker [(worker, gpuName, gpuSpec)] = _
    rw [List.lookup_cons, beq_self_eq_true]
  have hmanifest : run.manifests.lookup worker = some ⟨[(sectionName, manifest)]⟩ := by
    show List.lookup worker [(worker, ManifestDoc.mk [(sectionName, manifest)])] = _
    rw [List.lookup_cons, beq_self_eq_true]
  have hlabel : run.labels.lookup worker = some [label] := by
    show List.lookup worker [(worker, [label])] = _
    rw [List.lookup_cons, beq_self_eq_true]
  have hstaged : decide (worker ∈ run.stages) = staged := by
    show decide (worker ∈ if staged then [worker] else []) = staged
    cases staged with
    | true => exact decide_eq_true List.mem_cons_self
    | false => exact decide_eq_false List.not_mem_nil
  have hpoolrun : run.poolSpecs.lookup worker.1 = some poolSpec := hpool
  -- the one occurrence fails at its checks only
  have hadd : ∀ totals, run.addOccurrence maps ⟨[], [], none, 0, 0, 0⟩ ⟨worker, sectionName, 0⟩ =
      .ok totals ↔ (leafRows kept manifest).Nodup ∧ 0 < gpuSpec.peakTflops poolSpec.fallbackDtype ∧
        totals = ⟨[whole.mappingId], label.segments.map (·.name),
          some (poolSpec.archType, poolSpec.fallbackDtype, gpuName, gpuSpec),
          Binary64.sum (label.segments.map (·.flops)), Binary64.sum (label.segments.map (·.bytes)),
          (rootFloors gpuSpec (gpuSpec.peakTflops poolSpec.fallbackDtype)
            label.segments).1⟩ := by
    intro totals
    have hchecked := checkedSegments_ok hnames hwork
      (fun name hname => hname : ∀ name ∈ label.segments.map (·.name), _)
    rw [map_rowNamed hnames] at hchecked
    -- the first row total is a double already
    have hfirst : Binary64.add 0 (rootFloors gpuSpec (gpuSpec.peakTflops poolSpec.fallbackDtype)
        label.segments).1 = (rootFloors gpuSpec (gpuSpec.peakTflops poolSpec.fallbackDtype)
        label.segments).1 := by
      rw [Binary64.add, zero_add]
      exact Binary64.nearest_of_fits (Binary64.fits_sum _)
    simp only [ScopedRun.addOccurrence, hpoolrun, hhardware, hmanifest, hlabel, hstaged, required,
      hmap, ScopedRun.joinHardware, bind_eq_ok_iff, Except.ok.injEq, exists_eq_left',
      List.head?_cons]
    constructor
    · rintro ⟨selected, hfound, _, hceiling, values, hvalues, rows, hchecks, rfl⟩
      obtain ⟨hnodup, rfl⟩ := (hselected selected).mp hfound
      have hpeak := (ensure_eq_ok_iff.mp hceiling).1
      rw [semanticFloorValues_ok hnames hpeak hbandwidth] at hvalues
      obtain rfl := Except.ok.inj hvalues
      rw [hchecked] at hchecks
      obtain rfl := Except.ok.inj hchecks
      rw [hfirst]
      exact ⟨hnodup, hpeak, rfl⟩
    · rintro ⟨hnodup, hpeak, rfl⟩
      refine ⟨_, (hselected _).mpr ⟨hnodup, rfl⟩, (), ensure_eq_ok_iff.mpr ⟨hpeak, hbandwidth⟩, _,
        semanticFloorValues_ok hnames hpeak hbandwidth, _, hchecked, ?_⟩
      rw [hfirst]
      rfl
  constructor
  · rintro ⟨floors, hok, hr6, hr7⟩
    rw [ScopedRun.computeSemanticFloors, bind_eq_ok_iff] at hok
    obtain ⟨loaded, hloaded, hok⟩ := hok
    obtain ⟨hmaps, rfl⟩ := loadLocationMaps_iff.mp hloaded
    rw [bind_eq_ok_iff] at hok
    obtain ⟨totals, htotals, hok⟩ := hok
    rw [List.foldlM_cons, bind_eq_ok_iff] at htotals
    obtain ⟨only, honly, hlast⟩ := htotals
    obtain rfl := Except.ok.inj hlast
    obtain ⟨hnodup, hpeak, rfl⟩ := (hadd only).mp honly
    simp only [required, bind_eq_ok_iff, Except.ok.injEq, exists_eq_left'] at hok
    obtain ⟨_, -, rfl⟩ := hok
    exact ⟨hmaps, hpeak, hnodup, Prod.ext hr6 hr7⟩
  · rintro ⟨hmaps, hpeak, hnodup, hfloors⟩
    obtain ⟨hr6, hr7⟩ := Prod.mk.inj hfloors
    have hfold : [Occurrence.mk worker sectionName 0].foldlM (run.addOccurrence maps)
        ⟨[], [], none, 0, 0, 0⟩ = .ok ⟨[whole.mappingId], label.segments.map (·.name),
          some (poolSpec.archType, poolSpec.fallbackDtype, gpuName, gpuSpec),
          Binary64.sum (label.segments.map (·.flops)), Binary64.sum (label.segments.map (·.bytes)),
          (rootFloors gpuSpec (gpuSpec.peakTflops poolSpec.fallbackDtype)
            label.segments).1⟩ := by
      rw [List.foldlM_cons, (hadd _).mpr ⟨hnodup, hpeak, rfl⟩]
      rfl
    have hload : loadLocationMaps run.maps = .ok maps := loadLocationMaps_iff.mpr ⟨hmaps, rfl⟩
    simp only [ScopedRun.computeSemanticFloors, bind_eq_ok_iff, Except.ok.injEq, required]
    exact ⟨_, ⟨maps, hload, _, hfold, _, rfl, (), ensure_eq_ok_iff.mpr ⟨hpeak, hbandwidth⟩, rfl⟩,
      hr6, hr7⟩

/-! ## Prices -/

/-- The peak that a row is priced at by the labeler. -/
def rowPeak (peak : String → ℚ) (fallbackDtype : String) (segment : SemanticWork) : ℚ :=
  peak (segment.computeDtype.getD fallbackDtype)

/-- A row's seconds of compute at its own peak. -/
def ownCompute (peak : String → ℚ) (fallbackDtype : String) (segment : SemanticWork) : ℚ :=
  computeSeconds (rowPeak peak fallbackDtype segment) segment.flops

/-- A label as the labeler prices it: its rows in the order of their names, every row at its own
precision. -/
structure Priced (peak : String → ℚ) (bandwidthGbps : ℚ) (fallbackDtype : String)
    (label : IterationLabel) : Prop where
  sorted : nameSet (label.segments.map (·.name)) = label.segments.map (·.name)
  work : ∀ segment ∈ label.segments, 0 ≤ segment.flops ∧ 0 ≤ segment.bytes
  segmented : label.floors.segmented = Binary64.compensated (label.segments.map fun segment =>
    max (ownCompute peak fallbackDtype segment) (memorySeconds bandwidthGbps segment.bytes))
  fused : label.floors.fused =
    max (Binary64.sum (label.segments.map (ownCompute peak fallbackDtype)))
      (memorySeconds bandwidthGbps (Binary64.sum (label.segments.map (·.bytes))))

/-- A row of `_payload_from_segment_work`. -/
def payloadRow (peak : String → ℚ) (bandwidthGbps : ℚ) (defaultDtype name : String)
    (segment : PipelineStages.Segment) : SemanticWork :=
  let dtype := segment.computeDtype.getD defaultDtype
  ⟨name, segment.flopsTotal, segment.bytesTotal,
    max (computeSeconds (peak dtype) segment.flopsTotal)
      (memorySeconds bandwidthGbps segment.bytesTotal), some dtype⟩

/-- The label of `_label_payload`, as the analyzer reads it. -/
def labelPayload (peak : String → ℚ) (bandwidthGbps : ℚ) (defaultDtype : String)
    (segments : List PipelineStages.Segment) : IterationLabel :=
  let work := PipelineStages.workByName segments
  let rows := (PipelineStages.sortedNames work).filterMap fun name =>
    (work.lookup name).map (payloadRow peak bandwidthGbps defaultDtype name)
  -- every row names its precision
  let compute := Binary64.sum (rows.map (ownCompute peak defaultDtype))
  let bytes := Binary64.sum (rows.map (·.bytes))
  { floors :=
      { fused := max compute (memorySeconds bandwidthGbps bytes)
        segmented := Binary64.compensated (rows.map (·.necessaryGpuS)) }
    segments := rows }

theorem priced_labelPayload (peak : String → ℚ) (bandwidthGbps : ℚ) (defaultDtype : String)
    (fallbackDtype : String) {segments : List PipelineStages.Segment}
    (hwork : ∀ segment ∈ segments, 0 ≤ segment.flopsTotal ∧ 0 ≤ segment.bytesTotal) :
    Priced peak bandwidthGbps fallbackDtype
      (labelPayload peak bandwidthGbps defaultDtype segments) := by
  obtain ⟨hnodup, hrows, -⟩ := PipelineStages.workByName_spec segments
  set work := PipelineStages.workByName segments with hworkName
  set rows := (PipelineStages.sortedNames work).filterMap fun name =>
    (work.lookup name).map (payloadRow peak bandwidthGbps defaultDtype name) with hrowsList
  have hrow : ∀ row ∈ rows, ∃ name, ∃ segment ∈ segments,
      row = payloadRow peak bandwidthGbps defaultDtype name segment := by
    intro row hmem
    obtain ⟨name, -, hsome⟩ := List.mem_filterMap.mp hmem
    obtain ⟨segment, hlookup, rfl⟩ := Option.map_eq_some_iff.mp hsome
    exact ⟨name, segment, (hrows name segment hlookup).1, rfl⟩
  have hown : ∀ row ∈ rows,
      ownCompute peak defaultDtype row = ownCompute peak fallbackDtype row := fun row hmem => by
    obtain ⟨name, segment, -, rfl⟩ := hrow row hmem
    rfl
  have hnames : rows.map (·.name) = PipelineStages.sortedNames work := by
    rw [hrowsList, List.map_filterMap]
    refine (List.filterMap_congr (g := fun name => some name) fun name hname => ?_).trans
      List.filterMap_some
    obtain ⟨segment, hlookup⟩ :=
      Dictionary.mem_keys_iff.mp (PipelineStages.mem_sortedNames.mp hname)
    simp only [hlookup, Option.map_some]
    rfl
  refine ⟨?_, fun row hmem => ?_, ?_, ?_⟩
  · show nameSet (rows.map (·.name)) = rows.map (·.name)
    rw [hnames, nameSet, (PipelineStages.nodup_sortedNames hnodup).dedup]
    exact (List.pairwise_insertionSort (· ≤ ·) _).insertionSort_eq
  · obtain ⟨name, segment, hsegment, rfl⟩ := hrow row hmem
    exact hwork segment hsegment
  · refine congrArg Binary64.compensated (List.map_congr_left fun row hmem => ?_)
    obtain ⟨name, segment, -, rfl⟩ := hrow row hmem
    rfl
  · exact congrArg (fun computes => max (Binary64.sum computes) _) (List.map_congr_left hown)

/-- A sum whose running totals need no rounding. -/
def SumsExactly (values : List ℚ) : Prop :=
  ∀ n ≤ values.length, Binary64.Fits (values.take n).sum

instance (values : List ℚ) : Decidable (SumsExactly values) :=
  inferInstanceAs (Decidable (∀ n ≤ values.length, _))

/-- Nothing is lost where flops become seconds at the pool's peak: the quotients and both sums
are exact, or no more than one row computes. -/
def ComputesExactly (poolPeak : ℚ) (segments : List SemanticWork) : Prop :=
  (SumsExactly (segments.map (·.flops)) ∧
    SumsExactly (segments.map fun segment => computeSeconds poolPeak segment.flops) ∧
    ∀ segment ∈ segments, Binary64.Fits (segment.flops / Binary64.mul poolPeak (10 ^ 12))) ∨
  (segments.filter fun segment => segment.flops ≠ 0).length ≤ 1

/-- The two pricings agree on the rows: each runs at the pool's peak or is bound by memory at
both peaks. In one kernel the label is bound by memory at both, or no row has a peak of its
own. -/
structure PricedAlike (peak : String → ℚ) (bandwidthGbps : ℚ) (fallbackDtype : String)
    (poolPeak : ℚ) (segments : List SemanticWork) : Prop where
  rows : ∀ segment ∈ segments, rowPeak peak fallbackDtype segment = poolPeak ∨
    ownCompute peak fallbackDtype segment ≤ memorySeconds bandwidthGbps segment.bytes ∧
      computeSeconds poolPeak segment.flops ≤ memorySeconds bandwidthGbps segment.bytes
  rowSums : SumsExactly (segments.map fun segment =>
    max (ownCompute peak fallbackDtype segment) (memorySeconds bandwidthGbps segment.bytes))
  fused : Binary64.sum (segments.map (ownCompute peak fallbackDtype)) ≤
        memorySeconds bandwidthGbps (Binary64.sum (segments.map (·.bytes))) ∧
      computeSeconds poolPeak (Binary64.sum (segments.map (·.flops))) ≤
        memorySeconds bandwidthGbps (Binary64.sum (segments.map (·.bytes))) ∨
    (∀ segment ∈ segments, rowPeak peak fallbackDtype segment = poolPeak) ∧
      ComputesExactly poolPeak segments

theorem fits_max {x y : ℚ} (hx : Binary64.Fits x) (hy : Binary64.Fits y) :
    Binary64.Fits (max x y) := by
  rcases max_choice x y with h | h
  · rw [h]
    exact hx
  · rw [h]
    exact hy

theorem computeSeconds_sum {poolPeak : ℚ} {segments : List SemanticWork}
    (hflops : ∀ segment ∈ segments, Binary64.Fits segment.flops)
    (h : ComputesExactly poolPeak segments) :
    computeSeconds poolPeak (Binary64.sum (segments.map (·.flops))) =
      Binary64.sum (segments.map fun segment => computeSeconds poolPeak segment.flops) := by
  rcases h with ⟨htotal, hseconds, hquotients⟩ | hone
  · have hrow : ∀ segment ∈ segments,
        computeSeconds poolPeak segment.flops = segment.flops / Binary64.mul poolPeak (10 ^ 12) :=
      fun segment hsegment => Binary64.nearest_of_fits (hquotients segment hsegment)
    have hsum : (segments.map fun segment => computeSeconds poolPeak segment.flops).sum =
        (segments.map (·.flops)).sum / Binary64.mul poolPeak (10 ^ 12) := by
      rw [List.map_congr_left hrow, div_eq_mul_inv, ← List.sum_map_mul_right]
      exact congrArg List.sum (List.map_congr_left fun _ _ => div_eq_mul_inv _ _)
    have hfits := hseconds _ le_rfl
    rw [List.take_length, hsum] at hfits
    rw [Binary64.sum_exact htotal, Binary64.sum_exact hseconds, hsum]
    exact Binary64.nearest_of_fits hfits
  · -- a row without flops adds nothing to either total
    have hnone : computeSeconds poolPeak 0 = 0 := by
      rw [computeSeconds, Binary64.div, zero_div]
      exact Binary64.nearest_of_fits Binary64.fits_zero
    have hidle : ∀ segment ∈ segments, decide (segment.flops ≠ 0) = false → segment.flops = 0 :=
      fun segment _ h => by simpa using h
    have hidleSeconds : ∀ segment ∈ segments, decide (segment.flops ≠ 0) = false →
        computeSeconds poolPeak segment.flops = 0 := fun segment hsegment h => by
      rw [hidle segment hsegment h]
      exact hnone
    rw [Binary64.sum_map_filter hidle, Binary64.sum_map_filter hidleSeconds]
    rcases Nat.le_one_iff_eq_zero_or_eq_one.mp hone with hnil | hsingle
    · rw [List.length_eq_zero_iff.mp hnil]
      exact hnone
    · obtain ⟨only, hrows⟩ := List.length_eq_one_iff.mp hsingle
      have hmem : only ∈ segments := List.mem_of_mem_filter (hrows ▸ List.mem_singleton_self only)
      rw [hrows, List.map_singleton, List.map_singleton, Binary64.sum_singleton (hflops only hmem)]
      exact (Binary64.sum_singleton (Binary64.fits_nearest _)).symm

theorem rootFloors_eq {peak : String → ℚ} {fallbackDtype : String} {label : IterationLabel}
    {poolPeak : ℚ}
    (hpriced : Priced peak gpuSpec.memBandwidthGbps fallbackDtype label)
    (hflops : ∀ segment ∈ label.segments, Binary64.Fits segment.flops)
    (halike : PricedAlike peak gpuSpec.memBandwidthGbps fallbackDtype poolPeak label.segments) :
    rootFloors gpuSpec poolPeak label.segments = (label.floors.segmented, label.floors.fused) := by
  have hrow : ∀ segment ∈ label.segments, rooflineAt gpuSpec poolPeak segment.flops segment.bytes =
        max (ownCompute peak fallbackDtype segment)
          (memorySeconds gpuSpec.memBandwidthGbps segment.bytes) := by
    intro segment hsegment
    rcases halike.rows segment hsegment with hpeak | ⟨hown, hpool⟩
    · rw [rooflineAt, ownCompute, hpeak]
    · rw [rooflineAt, max_eq_right hown, max_eq_right hpool]
  rw [rootFloors, Prod.mk.injEq, hpriced.segmented, hpriced.fused, rooflineAt]
  constructor
  · have hfits : ∀ value ∈ label.segments.map fun segment =>
        max (ownCompute peak fallbackDtype segment)
          (memorySeconds gpuSpec.memBandwidthGbps segment.bytes), Binary64.Fits value := by
      intro value hvalue
      obtain ⟨segment, -, rfl⟩ := List.mem_map.mp hvalue
      exact fits_max (Binary64.fits_nearest _) (Binary64.fits_nearest _)
    rw [List.map_congr_left hrow, Binary64.sum_exact halike.rowSums,
      Binary64.compensated_exact hfits halike.rowSums]
  · rcases halike.fused with ⟨hown, hpool⟩ | ⟨hpeak, hexact⟩
    · rw [max_eq_right hown, max_eq_right hpool]
    · rw [computeSeconds_sum hflops hexact]
      refine congrArg (fun computes => max (Binary64.sum computes) _) ?_
      exact List.map_congr_left fun segment hsegment => by rw [ownCompute, hpeak segment hsegment]

/-- The scoped report of a root succeeds exactly when the directory's maps load, the GPU has a
peak at the pool's precision and no row is at two leaves. Its floors are the label's where the
rows are priced alike. -/
theorem scoped_floors_agree {maps : List LocationMap}
    {poolSpecs : List (String × PoolModelSpec)} {worker : WorkerKey} {sectionName : String}
    {manifest : Manifest} {label : IterationLabel} (gpuName : String)
    {staged : Bool} {poolSpec : PoolModelSpec} {peak : String → ℚ}
    {located : LocationMap × Located} {gpuCount : ℚ} {policy : NecessaryWorkPolicy}
    (hlocal : ∀ leaf ∈ manifest.slots, isCommunicationKind leaf.kind = false)
    (hleaves : ∀ leaf ∈ manifest.slots, leaf.name ∈ descendantLeaves manifest 0)
    (hpool : poolSpecs.lookup worker.1 = some poolSpec)
    (hstrict : (singleRun maps poolSpecs worker sectionName manifest label gpuName gpuSpec
      staged).catalog.locate worker.1 (kernelLocationsOf ⟨[(sectionName, manifest)]⟩)
        [(label, 1)] gpuSpec gpuCount policy = .ok located)
    (hpriced : Priced peak gpuSpec.memBandwidthGbps poolSpec.fallbackDtype label)
    (hflops : ∀ segment ∈ label.segments, Binary64.Fits segment.flops) :
    ((∃ floors, (singleRun maps poolSpecs worker sectionName manifest label gpuName gpuSpec
        staged).computeSemanticFloors [⟨worker, sectionName, 0⟩] = .ok floors) ↔
      (∀ locationMap ∈ maps, locationMap.schemaVersion = 1 ∧
        (locationMap.locations.map (·.location)).Nodup) ∧
      0 < gpuSpec.peakTflops poolSpec.fallbackDtype ∧ (leafRows located.1 manifest).Nodup) ∧
    (PricedAlike peak gpuSpec.memBandwidthGbps poolSpec.fallbackDtype
        (gpuSpec.peakTflops poolSpec.fallbackDtype) label.segments →
      ∀ floors, (singleRun maps poolSpecs worker sectionName manifest label gpuName gpuSpec
        staged).computeSemanticFloors [⟨worker, sectionName, 0⟩] = .ok floors →
        floors.r6GpuS = label.floors.segmented ∧ floors.r7GpuS = label.floors.fused) := by
  set run := singleRun maps poolSpecs worker sectionName manifest label gpuName gpuSpec staged
  have hdoc : ∀ leaf ∈ (ManifestDoc.mk [(sectionName, manifest)]).slots,
      isCommunicationKind leaf.kind = false := fun leaf hleaf => hlocal leaf (by
    simpa [ManifestDoc.slots] using hleaf)
  have hstaged : decide (worker.1 ∈ run.catalog.pipelinedPools) = staged := by
    show decide (worker.1 ∈ (if staged then [worker] else []).map Prod.fst) = staged
    cases staged with
    | true => exact decide_eq_true List.mem_cons_self
    | false => exact decide_eq_false List.not_mem_nil
  have hspec : run.catalog.poolSpec worker.1 = .ok poolSpec := by
    have hlookup : run.catalog.poolSpecs.lookup worker.1 = some poolSpec := hpool
    simp only [LocationCatalog.poolSpec, hlookup]
  -- the strict attribution gives the map, the bandwidth and the rows it consumes
  simp only [LocationCatalog.locate, bind_eq_ok_iff, Except.ok.injEq] at hstrict
  obtain ⟨_, -, found, hfound, locationMap, hselect, _, hbandwidth, state, hstate, hlocated⟩ :=
    hstrict
  rw [hspec] at hfound
  obtain rfl := Except.ok.inj hfound
  rw [hstaged] at hselect
  obtain ⟨whole, -, hmap, hkept⟩ := selectLocationMap_agrees hdoc hselect
  rw [List.foldlM_cons, bind_eq_ok_iff] at hstate
  obtain ⟨first, hfirst, -⟩ := hstate
  simp only [addLabel, bind_eq_ok_iff, Except.ok.injEq] at hfirst
  obtain ⟨_, hvalid, -⟩ := hfirst
  have hconsumes := validateMapping_spec hvalid
  rw [hkept] at hconsumes
  obtain ⟨hexpected, hslots⟩ := expected_agrees hdoc
  have hslots' : ∀ name, name ∈ ScopedRun.expectedLeaves ⟨[(sectionName, manifest)]⟩ ↔
      name ∈ manifest.slots.map (·.name) := fun name => by
    rw [hslots name]
    simp [ManifestDoc.slots]
  obtain ⟨hselected, hrows⟩ := @selectedSemantics_root whole _ label _ hconsumes hexpected worker
    sectionName manifest hslots' hleaves
  have hone : located.1 = whole.retain (ScopedRun.expectedLeaves ⟨[(sectionName, manifest)]⟩) := by
    rw [← hlocated]
    exact hkept
  have hroot := @computeSemanticFloors_root maps poolSpecs worker sectionName manifest label
    gpuName gpuSpec staged poolSpec whole _ hpool hmap (ensure_eq_ok_iff.mp hbandwidth)
    hpriced.sorted hpriced.work hselected hrows
  rw [← hone] at hroot
  refine ⟨⟨fun hsome => ?_, fun hcondition => ?_⟩, fun halike floors hok => ?_⟩
  · obtain ⟨floors, hok⟩ := hsome
    obtain ⟨hmaps, hpeak, hnodup, -⟩ := (hroot _ _).mp ⟨floors, hok, rfl, rfl⟩
    exact ⟨hmaps, hpeak, hnodup⟩
  · obtain ⟨hmaps, hpeak, hnodup⟩ := hcondition
    obtain ⟨floors, hok, -⟩ := (hroot _ _).mpr ⟨hmaps, hpeak, hnodup, rfl⟩
    exact ⟨floors, hok⟩
  · obtain ⟨-, -, -, hfloors⟩ := (hroot _ _).mp ⟨floors, hok, rfl, rfl⟩
    rw [rootFloors_eq hpriced hflops halike] at hfloors
    obtain ⟨hr6, hr7⟩ := Prod.mk.inj hfloors
    exact ⟨hr6.symm, hr7.symm⟩

/-- A GPU that computes twice as fast in eight bits. -/
def fastFp8 : GpuSpec := ⟨fun dtype => if dtype = "fp8" then 2 else 1, 1000⟩

/-- A gemm in sixteen bits, in a pool of eight. -/
def gemm (bytes : ℚ) : PipelineStages.Segment :=
  ⟨"gemm", 4 * 10 ^ 12, bytes, 1, some "bf16", none⟩

/-- A row in the pool's own precision, bound by compute. -/
def head : PipelineStages.Segment := ⟨"head", 6 * 10 ^ 12, 10 ^ 12, 1, none, none⟩

def labelOf (segments : List PipelineStages.Segment) : IterationLabel :=
  labelPayload fastFp8.peakTflops 1000 "fp8" segments

/-- A sum of one leaf a name. -/
def manifestOf (names : List String) : Manifest where
  slots := names.map fun name => ⟨"main." ++ name, "single_gemm"⟩
  nodes := .sum ⟨1, names.length + 1⟩ :: (List.range names.length).map .leaf

def mapOf (names : List String) : LocationMap :=
  ⟨1, "test", ["arch"], names.map fun name => ⟨"main." ++ name, [name]⟩⟩

def runOf (segments : List PipelineStages.Segment) : ScopedRun :=
  singleRun [mapOf (segments.map (·.name))] [("main", ⟨"arch", "fp8"⟩)] ("main", 0) "forward"
    (manifestOf (segments.map (·.name))) (labelOf segments) "gpu" fastFp8 false

/-- The map attributes the label strictly, and the scoped floors are half of the label's. -/
theorem gemm_half_priced : ((runOf [gemm 0]).catalog.locate "main"
        (kernelLocationsOf ⟨[("forward", manifestOf ["gemm"])]⟩) [(labelOf [gemm 0], 1)] fastFp8 1
        .batchLocked).isOk ∧
      ((runOf [gemm 0]).computeSemanticFloors [⟨("main", 0), "forward", 0⟩]).toOption.map
        (fun floors => (floors.r6GpuS, floors.r7GpuS)) = some (2, 2) ∧
      (labelOf [gemm 0]).floors.segmented = 4 ∧ (labelOf [gemm 0]).floors.fused = 4 := by
  decide +kernel

theorem scoped_floors_agree_gemm :
    ∃ floors, (runOf [gemm (10 ^ 13), head]).computeSemanticFloors [⟨("main", 0), "forward", 0⟩] =
        .ok floors ∧
      floors.r6GpuS = (labelOf [gemm (10 ^ 13), head]).floors.segmented ∧
        floors.r7GpuS = (labelOf [gemm (10 ^ 13), head]).floors.fused := by
  have hok : ((runOf [gemm (10 ^ 13), head]).catalog.locate "main"
      (kernelLocationsOf ⟨[("forward", manifestOf ["gemm", "head"])]⟩)
      [(labelOf [gemm (10 ^ 13), head], 1)] fastFp8 1 .batchLocked).toOption.map
      (fun located => located.1) = some (mapOf ["gemm", "head"]) := by decide +kernel
  have hpriced : Priced fastFp8.peakTflops 1000 "fp8" (labelOf [gemm (10 ^ 13), head]) :=
    priced_labelPayload _ _ _ _ fun segment hsegment => by
      simp only [List.mem_cons, List.not_mem_nil, or_false] at hsegment
      rcases hsegment with rfl | rfl <;> decide +kernel
  cases hlocate : (runOf [gemm (10 ^ 13), head]).catalog.locate "main"
      (kernelLocationsOf ⟨[("forward", manifestOf ["gemm", "head"])]⟩)
      [(labelOf [gemm (10 ^ 13), head], 1)] fastFp8 1 .batchLocked with
  | error message =>
    rw [hlocate] at hok
    cases hok
  | ok located =>
    rw [hlocate] at hok
    have hmap : located.1 = mapOf ["gemm", "head"] := Option.some.inj hok
    have hagree := scoped_floors_agree "gpu" (by decide +kernel) (by decide +kernel) rfl hlocate
      hpriced (by decide +kernel)
    obtain ⟨floors, hfloors⟩ := hagree.1.mpr ⟨by decide +kernel, by decide +kernel, by
      rw [hmap]
      decide +kernel⟩
    exact ⟨floors, hfloors, hagree.2 ⟨by decide +kernel, by decide +kernel,
      .inl (by decide +kernel)⟩ floors hfloors⟩

end Optimality

end ServingSim
