import ServingSim.Lib.Dictionary
import ServingSim.Optimality.LocationMap

/-
  Attribution consumes every semantic row once, or leaves the ladder as it was.

  A valid map has each location once and each row of a label once, so the work of the
  locations adds up to the work of the rows. The ladder's kernels then take the work of the
  locations one by one; finalizing fails when a kernel is left without, and a location is left
  without a kernel only where it has no work.

  What is proved:
    1. `attribution_consumes_once` — rows, totals and rooflines of an attributed ladder; a call
       that fails leaves the ladder unchanged.
-/

namespace ServingSim

namespace Optimality

/-! ## What a map consumes -/

theorem mem_nameSet {names : List String} {name : String} :
    name ∈ nameSet names ↔ name ∈ names := by
  rw [nameSet, List.mem_insertionSort, List.mem_dedup]

theorem nodup_of_length_nameSet {names : List String}
    (h : (nameSet names).length = names.length) : names.Nodup := by
  rw [nameSet, List.length_insertionSort] at h
  have heq := (List.dedup_sublist names).eq_of_length h
  exact heq ▸ List.nodup_dedup names

/-- A map that has a worker's locations and a label's rows, each once. -/
structure Consumes (locationMap : LocationMap) (kernelLocations : List KernelLocation)
    (segments : List SemanticWork) : Prop where
  locations : (locationMap.locations.map (·.location)).Nodup
  mapped : ∀ name, name ∈ locationMap.locations.map (·.location) ↔
    name ∈ expectedLocations kernelLocations
  once : locationMap.semantics.Nodup
  semantics : ∀ name, name ∈ locationMap.semantics ↔ name ∈ segments.map (·.name)

variable {kernelLocations : List KernelLocation} {locationMap : LocationMap}

theorem validateMapping_spec
    {segments : List SemanticWork}
    (h : validateMapping locationMap kernelLocations segments = .ok ()) :
    Consumes locationMap kernelLocations segments := by
  simp only [validateMapping, check_then_eq_ok_iff, ensure_eq_ok_iff] at h
  obtain ⟨-, hlocations, hlength, honce, hsemantics⟩ := h
  refine ⟨?_, fun name => ?_, nodup_of_length_nameSet honce, fun name => ?_⟩
  · refine nodup_of_length_nameSet (hlength.trans ?_)
    rw [List.length_map]
  · rw [hlocations]
    exact mem_nameSet.symm
  · rw [← mem_nameSet, ← hsemantics, mem_nameSet]

/-! ## Rows -/

/-- What a label's row is worth, zero without the row. -/
def rowValue (f : SemanticWork → ℚ) (segments : List SemanticWork) (name : String) : ℚ :=
  ((segments.map fun segment => (segment.name, f segment)).lookup name).getD 0

theorem rowValue_of_mem (f : SemanticWork → ℚ) {segments : List SemanticWork}
    (hnames : (segments.map (·.name)).Nodup) {segment : SemanticWork} (h : segment ∈ segments) :
    rowValue f segments segment.name = f segment := by
  have hkeys : ((segments.map fun segment => (segment.name, f segment)).map Prod.fst).Nodup := by
    rw [List.map_map]
    exact hnames
  have hmem := List.mem_map_of_mem (f := fun segment => (segment.name, f segment)) h
  rw [rowValue, Dictionary.lookup_of_mem hkeys hmem, Option.getD_some]

/-- The seconds a row computes for, at its own precision. -/
def computeSecondsOf (gpuSpec : GpuSpec) (fallbackDtype : String) (segment : SemanticWork) : ℚ :=
  segment.flops / (gpuSpec.peakTflops (segment.computeDtype.getD fallbackDtype) * 10 ^ 12)

/-- A row of the table is what the label says of it. -/
def IsRow (gpuSpec : GpuSpec) (fallbackDtype : String) (segments : List SemanticWork)
    (name : String) (row : NecessaryWork) : Prop :=
  row.flops = rowValue (·.flops) segments name ∧ row.bytes = rowValue (·.bytes) segments name ∧
    row.rooflineGpuS = rowValue (·.necessaryGpuS) segments name ∧
    row.computeGpuS = rowValue (computeSecondsOf gpuSpec fallbackDtype) segments name

theorem semanticWork_spec {gpuSpec : GpuSpec} {fallbackDtype : String}
    {segments : List SemanticWork} (hnames : (segments.map (·.name)).Nodup)
    {rows : List (String × NecessaryWork)}
    (h : semanticWork gpuSpec fallbackDtype segments = .ok rows) :
    (∀ name row, rows.lookup name = some row → IsRow gpuSpec fallbackDtype segments name row) ∧
      ∀ segment ∈ segments, 0 < gpuSpec.peakTflops (segment.computeDtype.getD fallbackDtype) := by
  simp only [semanticWork, bind_eq_ok_iff, Except.ok.injEq] at h
  obtain ⟨found, hfound, rfl⟩ := h
  have hrow : ∀ segment y, semanticRow gpuSpec fallbackDtype segment = .ok y →
      0 < gpuSpec.peakTflops (segment.computeDtype.getD fallbackDtype) ∧
        y = (segment.name, ⟨segment.flops, segment.bytes, segment.necessaryGpuS,
          computeSecondsOf gpuSpec fallbackDtype segment⟩) := by
    intro segment y hy
    simp only [semanticRow, check_then_eq_ok_iff, ensure_eq_ok_iff, Except.ok.injEq] at hy
    exact ⟨hy.1, hy.2.symm⟩
  refine ⟨fun name row hlookup => ?_, fun segment hsegment => ?_⟩
  · have hmem : (name, row) ∈ found.reverse := Dictionary.mem_of_lookup hlookup
    obtain ⟨segment, hsegment, hy⟩ := exists_mem_of_mapM hfound (List.mem_reverse.mp hmem)
    obtain ⟨hname, hvalue⟩ := Prod.mk.inj (hrow segment _ hy).2
    rw [hname, hvalue]
    have hfield := fun f : SemanticWork → ℚ => (rowValue_of_mem f hnames hsegment).symm
    exact ⟨hfield (·.flops), hfield (·.bytes), hfield (·.necessaryGpuS),
      hfield (computeSecondsOf gpuSpec fallbackDtype)⟩
  · obtain ⟨y, hy⟩ := exists_ok_of_mapM hfound hsegment
    exact (hrow segment y hy).1

theorem addRows_spec {gpuSpec : GpuSpec} {fallbackDtype : String} {segments : List SemanticWork}
    {rows : List (String × NecessaryWork)}
    (hrows : ∀ name row, rows.lookup name = some row →
      IsRow gpuSpec fallbackDtype segments name row)
    {semantics : List String} {total work : NecessaryWork}
    (h : semantics.foldlM (addRow rows) total = .ok work) :
    work.flops = total.flops + (semantics.map (rowValue (·.flops) segments)).sum ∧
      work.bytes = total.bytes + (semantics.map (rowValue (·.bytes) segments)).sum ∧
      work.rooflineGpuS =
        total.rooflineGpuS + (semantics.map (rowValue (·.necessaryGpuS) segments)).sum ∧
      work.computeGpuS = total.computeGpuS +
        (semantics.map (rowValue (computeSecondsOf gpuSpec fallbackDtype) segments)).sum := by
  induction semantics generalizing total with
  | nil =>
    obtain rfl := Except.ok.inj h
    simp
  | cons semantic semantics ih =>
    rw [List.foldlM_cons, bind_eq_ok_iff] at h
    obtain ⟨next, hnext, hrest⟩ := h
    rw [addRow] at hnext
    cases hlookup : rows.lookup semantic with
    | none =>
      rw [hlookup] at hnext
      cases hnext
    | some row =>
      rw [hlookup] at hnext
      obtain rfl := Except.ok.inj hnext
      obtain ⟨hflops, hbytes, hroofline, hcompute⟩ := hrows semantic row hlookup
      obtain ⟨ihflops, ihbytes, ihroofline, ihcompute⟩ := ih hrest
      simp only [List.map_cons, List.sum_cons, ← add_assoc]
      exact ⟨hflops ▸ ihflops, hbytes ▸ ihbytes, hroofline ▸ ihroofline, hcompute ▸ ihcompute⟩

/-- What a location's rows are worth in one label. -/
def ruleValue (f : SemanticWork → ℚ) (rule : LocationRule) (segments : List SemanticWork) : ℚ :=
  (rule.semantics.map (rowValue f segments)).sum

variable {rule : LocationRule}

theorem ruleWork_spec {gpuSpec : GpuSpec} {fallbackDtype : String} {segments : List SemanticWork}
    {rows : List (String × NecessaryWork)}
    (hrows : ∀ name row, rows.lookup name = some row →
      IsRow gpuSpec fallbackDtype segments name row)
    {gpuCount occurrences : ℚ} {work : KernelNecessaryWork}
    (h : ruleWork gpuSpec gpuCount occurrences rows rule = .ok work) :
    work.semantics = rule.semantics.toFinset ∧
      work.minFlops = ruleValue (·.flops) rule segments * occurrences ∧
      work.minBytes = ruleValue (·.bytes) rule segments * occurrences ∧
      work.computeGpuS =
        ruleValue (computeSecondsOf gpuSpec fallbackDtype) rule segments * occurrences ∧
      work.memoryGpuS = ruleValue (·.bytes) rule segments * occurrences /
        (gpuSpec.memBandwidthGbps * 10 ^ 9) ∧
      work.rooflineGpuS = ruleValue (·.necessaryGpuS) rule segments * occurrences := by
  simp only [ruleWork, bind_eq_ok_iff, Except.ok.injEq] at h
  obtain ⟨total, htotal, rfl⟩ := h
  obtain ⟨hflops, hbytes, hroofline, hcompute⟩ := addRows_spec hrows htotal
  rw [zero_add] at hflops hbytes hroofline hcompute
  refine ⟨rfl, congrArg (· * occurrences) hflops, congrArg (· * occurrences) hbytes,
    congrArg (· * occurrences) hcompute, ?_, congrArg (· * occurrences) hroofline⟩
  show total.bytes / (gpuSpec.memBandwidthGbps * 10 ^ 9) * occurrences = _
  rw [hbytes, div_mul_eq_mul_div]
  rfl

/-! ## Locations -/

theorem lookup_mergeWork (policy : NecessaryWorkPolicy) (location : String)
    (work : KernelNecessaryWork) (entries : List (String × KernelNecessaryWork)) (name : String) :
    (mergeWork policy location work entries).lookup name =
      if name = location then
        some ((entries.lookup location).elim work fun found => found.addForPolicy policy work)
      else entries.lookup name := by
  induction entries with
  | nil =>
    by_cases hname : name = location
    · rw [if_pos hname, mergeWork, List.lookup_cons, hname, beq_self_eq_true]
      rfl
    · rw [if_neg hname, mergeWork, List.lookup_cons, beq_eq_false_iff_ne.mpr hname]
  | cons entry entries ih =>
    by_cases hentry : entry.1 = location
    · rw [mergeWork, if_pos hentry, List.lookup_cons, List.lookup_cons, List.lookup_cons, hentry,
        beq_self_eq_true]
      by_cases hname : name = location
      · rw [if_pos hname, hname, beq_self_eq_true]
        rfl
      · rw [if_neg hname, beq_eq_false_iff_ne.mpr hname]
    · rw [mergeWork, if_neg hentry, List.lookup_cons, List.lookup_cons, List.lookup_cons, ih,
        beq_eq_false_iff_ne.mpr (Ne.symm hentry)]
      by_cases hname : name = entry.1
      · rw [hname, beq_self_eq_true]
        exact (if_neg hentry).symm
      · rw [beq_eq_false_iff_ne.mpr hname]

theorem addRules_spec {gpuSpec : GpuSpec} {gpuCount occurrences : ℚ} {policy : NecessaryWorkPolicy}
    {rows : List (String × NecessaryWork)} {rules : List LocationRule}
    (hrules : (rules.map (·.location)).Nodup) {work work' : List (String × KernelNecessaryWork)}
    (h : rules.foldlM (addRule gpuSpec gpuCount occurrences policy rows) work = .ok work') :
    (∀ name, name ∉ rules.map (·.location) → work'.lookup name = work.lookup name) ∧
      ∀ rule ∈ rules, ∃ located, ruleWork gpuSpec gpuCount occurrences rows rule = .ok located ∧
        work'.lookup rule.location = some ((work.lookup rule.location).elim located
          fun found => found.addForPolicy policy located) := by
  induction rules generalizing work with
  | nil =>
    obtain rfl := Except.ok.inj h
    exact ⟨fun _ _ => rfl, fun rule hrule => (List.not_mem_nil hrule).elim⟩
  | cons rule rules ih =>
    rw [List.map_cons, List.nodup_cons] at hrules
    simp only [List.foldlM_cons, bind_eq_ok_iff, addRule, Except.ok.injEq] at h
    obtain ⟨next, ⟨located, hlocated, rfl⟩, hrest⟩ := h
    obtain ⟨hother, heach⟩ := ih hrules.2 hrest
    refine ⟨fun name hname => ?_, fun found hfound => ?_⟩
    · rw [List.map_cons, List.mem_cons, not_or] at hname
      rw [hother name hname.2, lookup_mergeWork, if_neg hname.1]
    · rcases List.mem_cons.mp hfound with rfl | hfound
      · refine ⟨located, hlocated, ?_⟩
        rw [hother _ hrules.1, lookup_mergeWork, if_pos rfl]
      · obtain ⟨other, hok, hlookup⟩ := heach found hfound
        refine ⟨other, hok, ?_⟩
        have hne : found.location ≠ rule.location := fun heq =>
          hrules.1 (heq ▸ List.mem_map_of_mem hfound)
        rw [hlookup, lookup_mergeWork, if_neg hne]

/-- What a location's rows are worth in all labels. -/
def ruleTotal (f : SemanticWork → ℚ) (rule : LocationRule)
    (labels : List (IterationLabel × Nat)) : ℚ :=
  (labels.map fun label => ruleValue f rule label.1.segments * label.2).sum

theorem ruleTotal_append (f : SemanticWork → ℚ) (rule : LocationRule)
    (labels : List (IterationLabel × Nat)) (label : IterationLabel × Nat) :
    ruleTotal f rule (labels ++ [label]) =
      ruleTotal f rule labels + ruleValue f rule label.1.segments * label.2 := by
  rw [ruleTotal, List.map_append, List.sum_append, List.map_singleton, List.sum_singleton]
  rfl

/-- A location's work is that of its rows; only its roofline depends on the policy. -/
structure Holds (gpuSpec : GpuSpec) (fallbackDtype : String) (policy : NecessaryWorkPolicy)
    (rule : LocationRule) (labels : List (IterationLabel × Nat)) (work : KernelNecessaryWork) :
    Prop where
  semantics : work.semantics = rule.semantics.toFinset
  flops : work.minFlops = ruleTotal (·.flops) rule labels
  bytes : work.minBytes = ruleTotal (·.bytes) rule labels
  compute : work.computeGpuS = ruleTotal (computeSecondsOf gpuSpec fallbackDtype) rule labels
  memory : work.memoryGpuS = ruleTotal (·.bytes) rule labels / (gpuSpec.memBandwidthGbps * 10 ^ 9)
  roofline : work.rooflineGpuS = ruleTotal (·.necessaryGpuS) rule labels ∨
    labels.length ≠ 1 ∧ policy ≠ .batchLocked ∧
      work.rooflineGpuS = max work.computeGpuS work.memoryGpuS

/-- The locations' work after some labels: nothing, or that of each location. -/
def HoldsAll (gpuSpec : GpuSpec) (fallbackDtype : String) (policy : NecessaryWorkPolicy)
    (rules : List LocationRule) (labels : List (IterationLabel × Nat))
    (work : List (String × KernelNecessaryWork)) : Prop :=
  (∀ name, name ∉ rules.map (·.location) → work.lookup name = none) ∧
    ∀ rule ∈ rules, labels = [] ∧ work.lookup rule.location = none ∨
      labels ≠ [] ∧ ∃ found, work.lookup rule.location = some found ∧
        Holds gpuSpec fallbackDtype policy rule labels found

/-- What a label is taken to be: distinct rows, non-negative work, and time wherever there is
work. -/
structure Labelled (label : IterationLabel) : Prop where
  names : (label.segments.map (·.name)).Nodup
  flops : ∀ segment ∈ label.segments, 0 ≤ segment.flops
  bytes : ∀ segment ∈ label.segments, 0 ≤ segment.bytes
  roofline : ∀ segment ∈ label.segments, 0 ≤ segment.necessaryGpuS
  work : ∀ segment ∈ label.segments, segment.necessaryGpuS = 0 →
    segment.flops = 0 ∧ segment.bytes = 0

theorem addLabel_holds {gpuSpec : GpuSpec} {gpuCount : ℚ} {policy : NecessaryWorkPolicy}
    {fallbackDtype : String}
    {labels : List (IterationLabel × Nat)} {state state' : Located}
    {label : IterationLabel × Nat} (hlabel : Labelled label.1)
    (hstate : HoldsAll gpuSpec fallbackDtype policy locationMap.locations labels
      state.workByLocation)
    (h : addLabel gpuSpec gpuCount policy fallbackDtype locationMap kernelLocations state label =
      .ok state') :
    Consumes locationMap kernelLocations label.1.segments ∧ (∀ segment ∈ label.1.segments,
        0 < gpuSpec.peakTflops (segment.computeDtype.getD fallbackDtype)) ∧
      HoldsAll gpuSpec fallbackDtype policy locationMap.locations (labels ++ [label])
        state'.workByLocation := by
  simp only [addLabel, bind_eq_ok_iff, Except.ok.injEq] at h
  obtain ⟨_, hvalid, rows, hrows, work, hwork, rfl⟩ := h
  have hconsumes := validateMapping_spec hvalid
  obtain ⟨hrow, hpeak⟩ := semanticWork_spec hlabel.names hrows
  obtain ⟨hother, heach⟩ := addRules_spec hconsumes.locations hwork
  refine ⟨hconsumes, hpeak, fun name hname => ?_, fun rule hrule => .inr ⟨?_, ?_⟩⟩
  · rw [hother name hname, hstate.1 name hname]
  · exact List.append_ne_nil_of_right_ne_nil _ (List.cons_ne_nil _ _)
  obtain ⟨located, hlocated, hlookup⟩ := heach rule hrule
  obtain ⟨hsemantics, hflops, hbytes, hcompute, hmemory, hroofline⟩ := ruleWork_spec hrow hlocated
  refine ⟨_, hlookup, ?_⟩
  rcases hstate.2 rule hrule with ⟨rfl, hnone⟩ | ⟨hne, found, hfound, hholds⟩
  · -- the first label seeds the location with its own roofline
    rw [hnone]
    have htotal : ∀ f : SemanticWork → ℚ, ruleTotal f rule ([] ++ [label]) =
        ruleValue f rule label.1.segments * label.2 := fun f => by
      rw [ruleTotal_append, ruleTotal, List.map_nil, List.sum_nil, zero_add]
    exact ⟨hsemantics, hflops.trans (htotal _).symm, hbytes.trans (htotal _).symm,
      hcompute.trans (htotal _).symm, by rw [htotal]; exact hmemory,
      .inl (hroofline.trans (htotal _).symm)⟩
  · rw [hfound]
    have hadd : ∀ (f : SemanticWork → ℚ) {a b : ℚ}, a = ruleTotal f rule labels →
        b = ruleValue f rule label.1.segments * label.2 →
        a + b = ruleTotal f rule (labels ++ [label]) := fun f a b ha hb => by
      rw [ruleTotal_append, ha, hb]
    have hlength : (labels ++ [label]).length ≠ 1 := by
      rw [List.length_append, List.length_singleton]
      have := List.length_pos_iff.mpr hne
      omega
    refine ⟨?_, hadd _ hholds.flops hflops, hadd _ hholds.bytes hbytes,
      hadd _ hholds.compute hcompute, ?_, ?_⟩
    · show found.semantics ∪ located.semantics = _
      rw [hholds.semantics, hsemantics, Finset.union_self]
    · show found.memoryGpuS + located.memoryGpuS = _
      rw [hholds.memory, hmemory, ← add_div, hadd _ rfl rfl]
    · cases policy with
      | batchLocked =>
        rcases hholds.roofline with hroof | ⟨-, hpolicy, -⟩
        · exact .inl (hadd _ hroof hroofline)
        · exact absurd rfl hpolicy
      | saturated factor =>
        exact .inr ⟨hlength, (fun heq => by cases heq), rfl⟩

theorem addLabels_holds {gpuSpec : GpuSpec} {gpuCount : ℚ} {policy : NecessaryWorkPolicy}
    {fallbackDtype : String}
    {labels seen : List (IterationLabel × Nat)} {state state' : Located}
    (hlabels : ∀ label ∈ labels, Labelled label.1)
    (hstate : HoldsAll gpuSpec fallbackDtype policy locationMap.locations seen
      state.workByLocation)
    (h : labels.foldlM (addLabel gpuSpec gpuCount policy fallbackDtype locationMap kernelLocations)
      state = .ok state') :
    (∀ label ∈ labels, Consumes locationMap kernelLocations label.1.segments ∧
      ∀ segment ∈ label.1.segments,
        0 < gpuSpec.peakTflops (segment.computeDtype.getD fallbackDtype)) ∧
      HoldsAll gpuSpec fallbackDtype policy locationMap.locations (seen ++ labels)
        state'.workByLocation := by
  induction labels generalizing seen state with
  | nil =>
    obtain rfl := Except.ok.inj h
    rw [List.append_nil]
    exact ⟨fun label hlabel => (List.not_mem_nil hlabel).elim, hstate⟩
  | cons label labels ih =>
    obtain ⟨hlabel, hrest⟩ := List.forall_mem_cons.mp hlabels
    rw [List.foldlM_cons, bind_eq_ok_iff] at h
    obtain ⟨next, hnext, h⟩ := h
    obtain ⟨hconsumes, hpeak, hholds⟩ := addLabel_holds hlabel hstate hnext
    obtain ⟨heach, hall⟩ := ih hrest hholds h
    rw [List.append_assoc] at hall
    exact ⟨List.forall_mem_cons.mpr ⟨⟨hconsumes, hpeak⟩, heach⟩, hall⟩

/-! ## Kernels -/

/-- The names of the kernels that do local work. -/
def localNames (kernels : List KernelContribution) : List String :=
  (kernels.filter fun kernel => !kernel.isComm).map (·.name)

/-- A kernel with its location's work. -/
def withWork (work : List (String × KernelNecessaryWork)) (kernel : KernelContribution) :
    KernelContribution :=
  { kernel with
    necessaryWork :=
      if kernel.isComm then some KernelNecessaryWork.zero else work.lookup kernel.name }

theorem mem_localNames {kernels : List KernelContribution} {name : String} :
    name ∈ localNames kernels ↔ ∃ kernel ∈ kernels, kernel.isComm = false ∧ kernel.name = name := by
  simp [localNames, and_assoc]

theorem localNames_cons (kernel : KernelContribution) (kernels : List KernelContribution) :
    localNames (kernel :: kernels) =
      if kernel.isComm then localNames kernels else kernel.name :: localNames kernels := by
  rw [localNames, List.filter_cons]
  cases kernel.isComm with
  | true => rfl
  | false => rfl

theorem takeWork_spec {kernels : List KernelContribution}
    {work : List (String × KernelNecessaryWork)}
    (h : ∀ kernel ∈ takeWork kernels work, kernel.necessaryWork ≠ none) :
    takeWork kernels work = kernels.map (withWork work) ∧ (localNames kernels).Nodup ∧
      ∀ name ∈ localNames kernels, ∃ found, work.lookup name = some found := by
  induction kernels generalizing work with
  | nil => exact ⟨rfl, List.nodup_nil, fun name hname => (List.not_mem_nil hname).elim⟩
  | cons kernel kernels ih =>
    rw [localNames_cons]
    by_cases hcomm : kernel.isComm
    · rw [takeWork, if_pos hcomm, List.forall_mem_cons] at h
      obtain ⟨hmap, hnodup, hfound⟩ := ih h.2
      rw [takeWork, if_pos hcomm, if_pos hcomm, List.map_cons, hmap, withWork, if_pos hcomm]
      exact ⟨rfl, hnodup, hfound⟩
    · rw [takeWork, if_neg hcomm, List.forall_mem_cons] at h
      obtain ⟨hmap, hnodup, hfound⟩ := ih h.2
      have hne : ∀ name ∈ localNames kernels, name ≠ kernel.name := by
        rintro name hname rfl
        obtain ⟨found, hlookup⟩ := hfound _ hname
        rw [Dictionary.lookup_filter_self] at hlookup
        cases hlookup
      rw [takeWork, if_neg hcomm, if_neg hcomm, List.map_cons, hmap, withWork, if_neg hcomm]
      refine ⟨congrArg _ (List.map_congr_left fun other hother => ?_),
        List.nodup_cons.mpr ⟨fun hmem => hne _ hmem rfl, hnodup⟩,
        List.forall_mem_cons.mpr ⟨Option.ne_none_iff_exists'.mp h.1, fun name hname => ?_⟩⟩
      · by_cases hother' : other.isComm
        · rw [withWork, withWork, if_pos hother', if_pos hother']
        · rw [withWork, withWork, if_neg hother', if_neg hother', Dictionary.lookup_filter_ne]
          exact hne _ (mem_localNames.mpr ⟨other, hother, Bool.eq_false_iff.mpr hother', rfl⟩)
      · obtain ⟨found, hlookup⟩ := hfound name hname
        rw [Dictionary.lookup_filter_ne _ (hne name hname)] at hlookup
        exact ⟨found, hlookup⟩

theorem sum_withWork {f : KernelNecessaryWork → ℚ} (hzero : f KernelNecessaryWork.zero = 0)
    (work : List (String × KernelNecessaryWork)) (kernels : List KernelContribution) :
    KernelLadder.kernelSum (kernels.map (withWork work)) (KernelLadder.workOr0 f) =
      ((localNames kernels).map fun name => ((work.lookup name).map f).getD 0).sum := by
  rw [KernelLadder.kernelSum, List.map_map]
  induction kernels with
  | nil => rfl
  | cons kernel kernels ih =>
    rw [List.map_cons, List.sum_cons, ih, localNames_cons]
    by_cases hcomm : kernel.isComm
    · have hnone : KernelLadder.workOr0 f (withWork work kernel) = 0 := by
        rw [withWork, if_pos hcomm]
        exact hzero
      rw [if_pos hcomm, Function.comp_apply, hnone, zero_add]
    · rw [if_neg hcomm, List.map_cons, List.sum_cons, Function.comp_apply, withWork, if_neg hcomm]
      rfl

/-! ## Totals -/

variable {f : SemanticWork → ℚ}

theorem rowValue_nonneg {segments : List SemanticWork}
    (hf : ∀ segment ∈ segments, 0 ≤ f segment) (name : String) : 0 ≤ rowValue f segments name := by
  rw [rowValue]
  cases hlookup : (segments.map fun segment => (segment.name, f segment)).lookup name with
  | none => exact le_rfl
  | some value =>
    obtain ⟨segment, hsegment, heq⟩ := List.mem_map.mp (Dictionary.mem_of_lookup hlookup)
    rw [Option.getD_some, ← (Prod.mk.inj heq).2]
    exact hf segment hsegment

theorem ruleValue_nonneg {segments : List SemanticWork}
    (hf : ∀ segment ∈ segments, 0 ≤ f segment) (rule : LocationRule) :
    0 ≤ ruleValue f rule segments :=
  List.sum_nonneg fun value hvalue => by
    obtain ⟨name, -, rfl⟩ := List.mem_map.mp hvalue
    exact rowValue_nonneg hf name

theorem ruleTotal_nonneg {labels : List (IterationLabel × Nat)}
    (hf : ∀ label ∈ labels, ∀ segment ∈ label.1.segments, 0 ≤ f segment) (rule : LocationRule) :
    0 ≤ ruleTotal f rule labels :=
  List.sum_nonneg fun value hvalue => by
    obtain ⟨label, hlabel, rfl⟩ := List.mem_map.mp hvalue
    exact mul_nonneg (ruleValue_nonneg (hf label hlabel) rule) (Nat.cast_nonneg _)

theorem rowValue_eq_zero {labels : List (IterationLabel × Nat)}
    (hf : ∀ label ∈ labels, ∀ segment ∈ label.1.segments, 0 ≤ f segment)
    (h : ruleTotal f rule labels ≤ 0) {label : IterationLabel × Nat} (hlabel : label ∈ labels)
    (hoccurs : label.2 ≠ 0) {name : String} (hname : name ∈ rule.semantics) :
    rowValue f label.1.segments name = 0 := by
  have hvalue : ruleValue f rule label.1.segments * label.2 ≤ ruleTotal f rule labels :=
    List.single_le_sum (fun value hvalue => by
      obtain ⟨other, hother, rfl⟩ := List.mem_map.mp hvalue
      exact mul_nonneg (ruleValue_nonneg (hf other hother) rule) (Nat.cast_nonneg _)) _
      (List.mem_map_of_mem hlabel)
  have hrow : rowValue f label.1.segments name ≤ ruleValue f rule label.1.segments :=
    List.single_le_sum (fun value hvalue => by
      obtain ⟨other, -, rfl⟩ := List.mem_map.mp hvalue
      exact rowValue_nonneg (hf label hlabel) other) _ (List.mem_map_of_mem hname)
  have hpos : (0 : ℚ) < label.2 := Nat.cast_pos.mpr (Nat.pos_of_ne_zero hoccurs)
  have hzero : ruleValue f rule label.1.segments ≤ 0 :=
    nonpos_of_mul_nonpos_left (hvalue.trans h) hpos
  exact le_antisymm (hrow.trans hzero) (rowValue_nonneg (hf label hlabel) name)

/-- The labels' rows, each as often as its label occurs. -/
def rowsTotal (f : SemanticWork → ℚ) (labels : List (IterationLabel × Nat)) : ℚ :=
  (labels.map fun label => (label.1.segments.map f).sum * (label.2 : ℚ)).sum

theorem sum_ruleValue
    {segments : List SemanticWork}
    (hnames : (segments.map (·.name)).Nodup)
    (h : Consumes locationMap kernelLocations segments) :
    (locationMap.locations.map fun rule => ruleValue f rule segments).sum =
      (segments.map f).sum := by
  have hperm : locationMap.semantics.Perm (segments.map (·.name)) :=
    (List.perm_ext_iff_of_nodup h.once hnames).mpr h.semantics
  have hflat : ∀ rules : List LocationRule, (rules.map fun rule => ruleValue f rule segments).sum =
      ((rules.flatMap (·.semantics)).map (rowValue f segments)).sum := by
    intro rules
    induction rules with
    | nil => rfl
    | cons rule rules ih =>
      rw [List.map_cons, List.sum_cons, ih, List.flatMap_cons, List.map_append, List.sum_append]
      rfl
  calc (locationMap.locations.map fun rule => ruleValue f rule segments).sum
      = (locationMap.semantics.map (rowValue f segments)).sum := hflat _
    _ = ((segments.map (·.name)).map (rowValue f segments)).sum := (hperm.map _).sum_eq
    _ = (segments.map f).sum := by
      rw [List.map_map]
      exact congrArg List.sum (List.map_congr_left fun segment hsegment =>
        rowValue_of_mem f hnames hsegment)

theorem sum_ruleTotal
    {labels : List (IterationLabel × Nat)}
    (h : ∀ label ∈ labels, (label.1.segments.map (·.name)).Nodup ∧
      Consumes locationMap kernelLocations label.1.segments) :
    (locationMap.locations.map fun rule => ruleTotal f rule labels).sum = rowsTotal f labels := by
  induction labels with
  | nil => simp [ruleTotal, rowsTotal]
  | cons label labels ih =>
    obtain ⟨hlabel, hrest⟩ := List.forall_mem_cons.mp h
    have hcons : (fun rule => ruleTotal f rule (label :: labels)) = fun rule =>
        ruleValue f rule label.1.segments * label.2 + ruleTotal f rule labels := by
      funext rule
      rw [ruleTotal, List.map_cons, List.sum_cons]
      rfl
    rw [hcons, List.sum_map_add, List.sum_map_mul_right, ih hrest, sum_ruleValue hlabel.1 hlabel.2]
    rfl

/-! ## The attributed ladder -/

/-- Locations without a kernel have no work. -/
def Workless (rule : LocationRule) (labels : List (IterationLabel × Nat)) : Prop :=
  ∀ label ∈ labels, label.2 = 0 ∨ ∀ name ∈ rule.semantics,
    rowValue (·.flops) label.1.segments name = 0 ∧ rowValue (·.bytes) label.1.segments name = 0

theorem Workless.ruleTotal {labels : List (IterationLabel × Nat)}
    (h : Workless rule labels) :
    ruleTotal (·.flops) rule labels = 0 ∧ ruleTotal (·.bytes) rule labels = 0 := by
  have hzero : ∀ f : SemanticWork → ℚ, (∀ label ∈ labels, label.2 = 0 ∨
      ∀ name ∈ rule.semantics, rowValue f label.1.segments name = 0) →
      Optimality.ruleTotal f rule labels = 0 := by
    intro f hf
    refine List.sum_eq_zero fun value hvalue => ?_
    obtain ⟨label, hlabel, rfl⟩ := List.mem_map.mp hvalue
    rcases hf label hlabel with hnone | hrows
    · rw [hnone, Nat.cast_zero, mul_zero]
    · have hrule : ruleValue f rule label.1.segments = 0 := List.sum_eq_zero fun value hvalue => by
        obtain ⟨name, hname, rfl⟩ := List.mem_map.mp hvalue
        exact hrows name hname
      rw [hrule, zero_mul]
  exact ⟨hzero _ fun label hlabel => (h label hlabel).imp id fun hrows name hname =>
      (hrows name hname).1,
    hzero _ fun label hlabel => (h label hlabel).imp id fun hrows name hname =>
      (hrows name hname).2⟩

theorem Holds.workless {gpuSpec : GpuSpec} {fallbackDtype : String} {policy : NecessaryWorkPolicy}
    {labels : List (IterationLabel × Nat)} {work : KernelNecessaryWork}
    (h : Holds gpuSpec fallbackDtype policy rule labels work)
    (hlabels : ∀ label ∈ labels, Labelled label.1)
    (hbandwidth : 0 < gpuSpec.memBandwidthGbps)
    (hpeak : ∀ label ∈ labels, ∀ segment ∈ label.1.segments,
      0 < gpuSpec.peakTflops (segment.computeDtype.getD fallbackDtype))
    (hrule : ∀ label ∈ labels, ∀ name ∈ rule.semantics, name ∈ label.1.segments.map (·.name))
    (htime : work.rooflineGpuS ≤ 0) : Workless rule labels ∧ work.rooflineGpuS = 0 := by
  have hbytes := fun label hlabel => (hlabels label hlabel).bytes
  have hroofline := fun label hlabel => (hlabels label hlabel).roofline
  have hcompute : ∀ label ∈ labels, ∀ segment ∈ label.1.segments,
      0 ≤ computeSecondsOf gpuSpec fallbackDtype segment := fun label hlabel segment hsegment =>
    div_nonneg ((hlabels label hlabel).flops segment hsegment)
      (mul_nonneg (hpeak label hlabel segment hsegment).le (by norm_num))
  have hunit : (0 : ℚ) < gpuSpec.memBandwidthGbps * 10 ^ 9 := by positivity
  rcases h.roofline with hroof | ⟨-, -, hroof⟩
  · refine ⟨fun label hlabel => or_iff_not_imp_left.mpr fun hoccurs name hname => ?_,
      le_antisymm htime (hroof ▸ ruleTotal_nonneg hroofline rule)⟩
    obtain ⟨segment, hsegment, rfl⟩ := List.mem_map.mp (hrule label hlabel name hname)
    have hzero := rowValue_eq_zero hroofline (hroof ▸ htime) hlabel hoccurs hname
    rw [rowValue_of_mem _ (hlabels label hlabel).names hsegment] at hzero ⊢
    rw [rowValue_of_mem _ (hlabels label hlabel).names hsegment]
    exact (hlabels label hlabel).work segment hsegment hzero
  · rw [hroof, max_le_iff, h.compute, h.memory] at htime
    refine ⟨fun label hlabel => or_iff_not_imp_left.mpr fun hoccurs name hname => ⟨?_, ?_⟩, ?_⟩
    · obtain ⟨segment, hsegment, rfl⟩ := List.mem_map.mp (hrule label hlabel name hname)
      have hzero := rowValue_eq_zero hcompute htime.1 hlabel hoccurs hname
      rw [rowValue_of_mem _ (hlabels label hlabel).names hsegment] at hzero ⊢
      have hunit' := hpeak label hlabel segment hsegment
      rcases div_eq_zero_iff.mp hzero with hflops | hnone
      · exact hflops
      · exact absurd hnone (by positivity)
    · refine rowValue_eq_zero hbytes ?_ hlabel hoccurs hname
      have hproduct := (div_le_iff₀ hunit).mp htime.2
      rwa [zero_mul] at hproduct
    · rw [hroof, h.compute, h.memory]
      refine le_antisymm (max_le htime.1 htime.2) (le_max_of_le_left ?_)
      exact ruleTotal_nonneg hcompute rule

theorem finalizeNecessaryWork_ok {ladder after : KernelLadder} {policy : NecessaryWorkPolicy}
    {override : Option ℚ} (h : ladder.finalizeNecessaryWork policy override = .ok after) :
    (∀ kernel ∈ ladder.kernels, kernel.necessaryWork ≠ none) ∧ after.kernels = ladder.kernels := by
  simp only [KernelLadder.finalizeNecessaryWork, bind_eq_ok_iff, Except.ok.injEq] at h
  obtain ⟨_, hcovered, _, -, rfl⟩ := h
  have hnot := ensure_eq_ok_iff.mp hcovered
  exact ⟨fun kernel hkernel hnone => hnot ⟨kernel, hkernel, hnone⟩, rfl⟩

theorem exists_missingKernel
    {work : List (String × KernelNecessaryWork)} {kernels : List KernelContribution}
    (hrule : rule ∈ locationMap.locations)
    (hlisted : rule.location ∉ kernels.map (·.name)) {found : KernelNecessaryWork}
    (hlookup : work.lookup rule.location = some found) (htime : 0 < found.rooflineGpuS) :
    ∃ kernel ∈ missingKernels locationMap kernelLocations work kernels,
      kernel.isComm = false ∧ kernel.name = rule.location := by
  refine ⟨_, List.mem_map_of_mem (List.mem_filter.mpr ⟨hrule, ?_⟩), rfl, rfl⟩
  rw [hlookup, Bool.and_eq_true]
  exact ⟨decide_eq_true hlisted, decide_eq_true htime⟩

theorem attributed_ok
    {policy : NecessaryWorkPolicy} {located : Located} {ladder after : KernelLadder}
    (h : attributed locationMap kernelLocations policy located ladder = .ok after) :
    let kernels := ladder.kernels ++
      missingKernels locationMap kernelLocations located.workByLocation ladder.kernels
    (∀ kernel ∈ takeWork kernels located.workByLocation, kernel.necessaryWork ≠ none) ∧
      after.kernels = takeWork kernels located.workByLocation := by
  simp only [attributed, bind_eq_ok_iff] at h
  obtain ⟨finalized, hfinalized, h⟩ := h
  have hafter : after = finalized := by
    split at h
    · simp only [bind_eq_ok_iff, Except.ok.injEq] at h
      obtain ⟨_, -, h⟩ := h
      exact h.symm
    · cases h
    · cases h
  rw [hafter]
  exact finalizeNecessaryWork_ok hfinalized

/-- The kernels that count a semantic row. -/
def counting (name : String) (kernels : List KernelContribution) : List KernelContribution :=
  kernels.filter fun kernel =>
    decide (name ∈ (kernel.necessaryWork.map (·.semantics)).getD ∅)

theorem filter_name {kernels : List KernelContribution} (h : (localNames kernels).Nodup)
    {name : String} (hname : name ∈ localNames kernels) :
    ∃ kernel, kernels.filter (fun kernel => !kernel.isComm && decide (kernel.name = name)) =
      [kernel] ∧ kernel.isComm = false := by
  obtain ⟨kernel, hkernel, hcomm, rfl⟩ := mem_localNames.mp hname
  refine ⟨kernel, ?_, hcomm⟩
  have hlength : (kernels.filter fun other =>
      !other.isComm && decide (other.name = kernel.name)).length = 1 := by
    have hcount := List.count_eq_one_of_mem h hname
    rw [localNames, List.count, List.countP_map, List.countP_filter] at hcount
    rw [← List.countP_eq_length_filter, ← hcount]
    refine List.countP_congr fun other _ => ?_
    simp [and_comm]
  obtain ⟨only, honly⟩ := List.length_eq_one_iff.mp hlength
  have hmem : kernel ∈ kernels.filter fun other =>
      !other.isComm && decide (other.name = kernel.name) :=
    List.mem_filter.mpr ⟨hkernel, by simp [hcomm]⟩
  rw [honly] at hmem ⊢
  rw [List.mem_singleton.mp hmem]

theorem semantics_injective {rules : List LocationRule}
    (h : (rules.flatMap (·.semantics)).Nodup) {rule other : LocationRule} (hrule : rule ∈ rules)
    (hother : other ∈ rules) {name : String} (hname : name ∈ rule.semantics)
    (hname' : name ∈ other.semantics) : rule = other := by
  induction rules with
  | nil => cases hrule
  | cons first rules ih =>
    rw [List.flatMap_cons, List.nodup_append] at h
    obtain ⟨-, hrest, hdisjoint⟩ := h
    have hapart : ∀ rule ∈ rules, name ∈ first.semantics → name ∈ rule.semantics → False :=
      fun rule hrule hleft hright =>
        hdisjoint name hleft name (List.mem_flatMap.mpr ⟨rule, hrule, hright⟩) rfl
    rcases List.mem_cons.mp hrule with rfl | hmem
    · rcases List.mem_cons.mp hother with rfl | hother
      · rfl
      · exact (hapart other hother hname hname').elim
    · rcases List.mem_cons.mp hother with rfl | hother
      · exact (hapart rule hmem hname' hname).elim
      · exact ih hrest hmem hother

/-- A ladder whose kernels have taken the work of the labels' rows. -/
structure ConsumedOnce (labels : List (IterationLabel × Nat)) (policy : NecessaryWorkPolicy)
    (kernels : List KernelContribution) : Prop where
  /-- A row is counted in one local kernel, or it is nothing and its location has no kernel. -/
  rows : ∀ label ∈ labels, ∀ segment ∈ label.1.segments,
    (∃ kernel, counting segment.name kernels = [kernel] ∧ kernel.isComm = false) ∨
      counting segment.name kernels = [] ∧ (label.2 = 0 ∨ segment.flops = 0 ∧ segment.bytes = 0)
  flops : KernelLadder.kernelSum kernels (KernelLadder.workOr0 (·.minFlops)) =
    rowsTotal (·.flops) labels
  bytes : KernelLadder.kernelSum kernels (KernelLadder.workOr0 (·.minBytes)) =
    rowsTotal (·.bytes) labels
  communication : ∀ kernel ∈ kernels, kernel.isComm = true →
    kernel.necessaryWork = some KernelNecessaryWork.zero
  roofline : labels.length = 1 ∨ policy = .batchLocked →
    KernelLadder.kernelSum kernels (KernelLadder.workOr0 (·.necessaryGpuS)) =
      rowsTotal (·.necessaryGpuS) labels

/-- Kernels that take the work of the rules' locations, each location's at most once, and
locations without a kernel that need no time. -/
structure Taken (gpuSpec : GpuSpec) (fallbackDtype : String) (policy : NecessaryWorkPolicy)
    (rules : List LocationRule) (labels : List (IterationLabel × Nat))
    (work : List (String × KernelNecessaryWork)) (kernels : List KernelContribution) : Prop where
  locations : (rules.map (·.location)).Nodup
  once : (rules.flatMap (·.semantics)).Nodup
  held : ∀ rule ∈ rules, ∃ found, work.lookup rule.location = some found ∧
    Holds gpuSpec fallbackDtype policy rule labels found
  others : ∀ name, name ∉ rules.map (·.location) → work.lookup name = none
  distinct : (localNames kernels).Nodup
  found : ∀ name ∈ localNames kernels, ∃ found, work.lookup name = some found
  workless : ∀ rule ∈ rules, rule.location ∉ localNames kernels → Workless rule labels ∧
    ∀ found, work.lookup rule.location = some found → found.rooflineGpuS = 0

section taken

variable {gpuSpec : GpuSpec} {fallbackDtype : String} {policy : NecessaryWorkPolicy}
  {rules : List LocationRule} {labels : List (IterationLabel × Nat)}
  {work : List (String × KernelNecessaryWork)} {kernels : List KernelContribution}

variable {f : KernelNecessaryWork → ℚ}

theorem Taken.kernelSum (h : Taken gpuSpec fallbackDtype policy rules labels work kernels)
    (hzero : f KernelNecessaryWork.zero = 0)
    (hf : ∀ rule ∈ rules, rule.location ∉ localNames kernels →
      ∀ found, work.lookup rule.location = some found → f found = 0) :
    KernelLadder.kernelSum (kernels.map (withWork work)) (KernelLadder.workOr0 f) =
      (rules.map fun rule => ((work.lookup rule.location).map f).getD 0).sum := by
  have hsub : ∀ name ∈ localNames kernels, name ∈ rules.map (·.location) := by
    intro name hname
    by_contra hnot
    obtain ⟨found, hlookup⟩ := h.found name hname
    rw [h.others name hnot] at hlookup
    cases hlookup
  rw [sum_withWork hzero, ← Dictionary.sum_superset h.locations h.distinct hsub, List.map_map]
  · rfl
  · intro name hname hnot
    obtain ⟨rule, hmem, rfl⟩ := List.mem_map.mp hname
    obtain ⟨found, hlookup, -⟩ := h.held rule hmem
    rw [hlookup]
    exact hf rule hmem hnot found hlookup

theorem Taken.kernelSum_eq {locationMap : LocationMap} {kernelLocations : List KernelLocation}
    (h : Taken gpuSpec fallbackDtype policy locationMap.locations labels work kernels)
    (hnamed : ∀ label ∈ labels, (label.1.segments.map (·.name)).Nodup ∧
      Consumes locationMap kernelLocations label.1.segments)
    (hzero : f KernelNecessaryWork.zero = 0) {g : SemanticWork → ℚ}
    (hfg : ∀ rule ∈ locationMap.locations, ∀ found,
      Holds gpuSpec fallbackDtype policy rule labels found → f found = ruleTotal g rule labels)
    (hf : ∀ rule ∈ locationMap.locations, rule.location ∉ localNames kernels →
      ∀ found, work.lookup rule.location = some found → f found = 0) :
    KernelLadder.kernelSum (kernels.map (withWork work)) (KernelLadder.workOr0 f) =
      rowsTotal g labels := by
  rw [h.kernelSum hzero hf, ← sum_ruleTotal hnamed]
  refine congrArg List.sum (List.map_congr_left fun rule hmem => ?_)
  obtain ⟨found, hlookup, hholds⟩ := h.held rule hmem
  rw [hlookup]
  exact hfg rule hmem found hholds

section

variable (h : Taken gpuSpec fallbackDtype policy rules labels work kernels)

include h

theorem Taken.eq_zero {g : SemanticWork → ℚ}
    (hfg : ∀ rule ∈ rules, ∀ found,
      Holds gpuSpec fallbackDtype policy rule labels found → f found = ruleTotal g rule labels)
    (hg : ∀ rule, Workless rule labels → ruleTotal g rule labels = 0) :
    ∀ rule ∈ rules, rule.location ∉ localNames kernels →
      ∀ found, work.lookup rule.location = some found → f found = 0 := by
  intro rule hmem hnot found hlookup
  obtain ⟨found', hlookup', hholds⟩ := h.held rule hmem
  obtain rfl := Option.some.inj (hlookup.symm.trans hlookup')
  exact (hfg rule hmem found hholds).trans (hg rule (h.workless rule hmem hnot).1)

theorem Taken.counting_eq
    {rule : LocationRule} (hmem : rule ∈ rules) {name : String} (hrow : name ∈ rule.semantics) :
    counting name (kernels.map (withWork work)) = (kernels.filter fun kernel =>
      !kernel.isComm && decide (kernel.name = rule.location)).map (withWork work) := by
  rw [counting, List.filter_map]
  refine congrArg _ (List.filter_congr fun kernel hkernel => ?_)
  rw [Function.comp_apply]
  cases hcomm : kernel.isComm with
  | true =>
    rw [withWork, if_pos hcomm]
    exact decide_eq_false (Finset.notMem_empty _)
  | false =>
    rw [withWork, if_neg (Bool.eq_false_iff.mp hcomm), Bool.not_false, Bool.true_and]
    obtain ⟨found, hlookup⟩ :=
      h.found kernel.name (mem_localNames.mpr ⟨kernel, hkernel, hcomm, rfl⟩)
    have hmapped : kernel.name ∈ rules.map (·.location) := by
      by_contra hnot
      rw [h.others _ hnot] at hlookup
      cases hlookup
    obtain ⟨other, hother, hothername⟩ := List.mem_map.mp hmapped
    obtain ⟨found', hlookup', hholds⟩ := h.held other hother
    rw [hothername, hlookup] at hlookup'
    obtain rfl := Option.some.inj hlookup'
    rw [hlookup]
    refine decide_eq_decide.mpr ?_
    show name ∈ found.semantics ↔ _
    rw [hholds.semantics, List.mem_toFinset]
    constructor
    · intro hin
      have hsame := semantics_injective h.once hother hmem hin hrow
      rw [← hothername, hsame]
    · intro hsame
      have hrules : other = rule :=
        List.inj_on_of_nodup_map h.locations hother hmem (hothername.trans hsame)
      exact hrules ▸ hrow

theorem Taken.row (hlabels : ∀ label ∈ labels, Labelled label.1) {label : IterationLabel × Nat}
    (hlabel : label ∈ labels) {segment : SemanticWork} (hsegment : segment ∈ label.1.segments)
    (hname : segment.name ∈ rules.flatMap (·.semantics)) :
    (∃ kernel, counting segment.name (kernels.map (withWork work)) = [kernel] ∧
        kernel.isComm = false) ∨
      counting segment.name (kernels.map (withWork work)) = [] ∧
        (label.2 = 0 ∨ segment.flops = 0 ∧ segment.bytes = 0) := by
  obtain ⟨rule, hmem, hrow⟩ := List.mem_flatMap.mp hname
  by_cases hlocal : rule.location ∈ localNames kernels
  · obtain ⟨kernel, honly, hcomm⟩ := filter_name h.distinct hlocal
    refine .inl ⟨withWork work kernel, ?_, hcomm⟩
    rw [h.counting_eq hmem hrow, honly]
    rfl
  · refine .inr ⟨?_, ?_⟩
    · rw [h.counting_eq hmem hrow, List.map_eq_nil_iff, List.filter_eq_nil_iff]
      intro kernel hkernel hpick
      rw [Bool.and_eq_true, Bool.not_eq_true', decide_eq_true_eq] at hpick
      exact hlocal (mem_localNames.mpr ⟨kernel, hkernel, hpick.1, hpick.2⟩)
    · refine ((h.workless rule hmem hlocal).1 label hlabel).imp id fun hrows => ?_
      have hrowzero := hrows segment.name hrow
      rwa [rowValue_of_mem _ (hlabels label hlabel).names hsegment,
        rowValue_of_mem _ (hlabels label hlabel).names hsegment] at hrowzero

end

end taken

theorem idle_of_missing
    {ladder : KernelLadder} {work : List (String × KernelNecessaryWork)}
    (hrule : rule ∈ locationMap.locations) (hexpected : rule.location ∈
      expectedLocations kernelLocations)
    (hladder : ∀ kernel ∈ ladder.kernels, kernel.isComm = true →
      kernel.name ∉ expectedLocations kernelLocations)
    (hnot : rule.location ∉ localNames (ladder.kernels ++
      missingKernels locationMap kernelLocations work ladder.kernels))
    {found : KernelNecessaryWork} (hlookup : work.lookup rule.location = some found) :
    found.rooflineGpuS ≤ 0 := by
  rw [← not_lt]
  intro htime
  have hlisted : rule.location ∉ ladder.kernels.map (·.name) := fun hmem => by
    obtain ⟨kernel, hkernel, hname⟩ := List.mem_map.mp hmem
    cases hcomm : kernel.isComm with
    | true => exact hladder kernel hkernel hcomm (hname ▸ hexpected)
    | false =>
      exact hnot (mem_localNames.mpr ⟨kernel, List.mem_append_left _ hkernel, hcomm, hname⟩)
  obtain ⟨kernel, hkernel, hcomm, hname⟩ := exists_missingKernel hrule hlisted hlookup htime
  exact hnot (mem_localNames.mpr ⟨kernel, List.mem_append_right _ hkernel, hcomm, hname⟩)

theorem attributed_consumes {gpuSpec : GpuSpec} {fallbackDtype : String}
    {policy : NecessaryWorkPolicy}
    {labels : List (IterationLabel × Nat)}
    {located : Located} {ladder after : KernelLadder} (hne : labels ≠ [])
    (hlabels : ∀ label ∈ labels, Labelled label.1)
    (hladder : ∀ kernel ∈ ladder.kernels, kernel.isComm = true →
      kernel.name ∉ expectedLocations kernelLocations)
    (hbandwidth : 0 < gpuSpec.memBandwidthGbps)
    (hconsumes : ∀ label ∈ labels, Consumes locationMap kernelLocations label.1.segments ∧
      ∀ segment ∈ label.1.segments,
        0 < gpuSpec.peakTflops (segment.computeDtype.getD fallbackDtype))
    (hholds : HoldsAll gpuSpec fallbackDtype policy locationMap.locations labels
      located.workByLocation)
    (h : attributed locationMap kernelLocations policy located ladder = .ok after) :
    ConsumedOnce labels policy after.kernels := by
  obtain ⟨hcovered, hafter⟩ := attributed_ok h
  set work := located.workByLocation
  set kernels := ladder.kernels ++
    missingKernels locationMap kernelLocations work ladder.kernels with hkernels
  obtain ⟨hmap, hnodup, hfound⟩ := takeWork_spec hcovered
  rw [hmap] at hafter
  obtain ⟨first, hfirst⟩ := List.exists_mem_of_ne_nil labels hne
  obtain ⟨hmapped, -⟩ := hconsumes first hfirst
  have hnames : ∀ rule ∈ locationMap.locations, ∀ label ∈ labels, ∀ name ∈ rule.semantics,
      name ∈ label.1.segments.map (·.name) := fun rule hrule label hlabel name hname =>
    ((hconsumes label hlabel).1.semantics name).mp (List.mem_flatMap.mpr ⟨rule, hrule, hname⟩)
  have hrule : ∀ rule ∈ locationMap.locations, ∃ found, work.lookup rule.location = some found ∧
      Holds gpuSpec fallbackDtype policy rule labels found := fun rule hrule => by
    rcases hholds.2 rule hrule with ⟨hnil, -⟩ | ⟨-, hfound⟩
    · exact absurd hnil hne
    · exact hfound
  -- a rule that no kernel answers for is idle: a missing kernel would have been added
  have htaken : Taken gpuSpec fallbackDtype policy locationMap.locations labels work kernels := by
    refine ⟨hmapped.locations, hmapped.once, hrule, hholds.1, hnodup, hfound,
      fun rule hmem hnot => ?_⟩
    obtain ⟨found, hlookup, hfoundHolds⟩ := hrule rule hmem
    have hidle := idle_of_missing hmem ((hmapped.mapped _).mp (List.mem_map_of_mem hmem)) hladder
      hnot hlookup
    obtain ⟨hnone, hzero⟩ := hfoundHolds.workless hlabels hbandwidth
      (fun label hlabel => (hconsumes label hlabel).2) (hnames rule hmem) hidle
    refine ⟨hnone, fun other hother => ?_⟩
    rw [hlookup] at hother
    exact Option.some.inj hother ▸ hzero
  have hnamed := fun label hlabel =>
    And.intro (hlabels label hlabel).names (hconsumes label hlabel).1
  rw [hafter]
  refine ⟨fun label hlabel segment hsegment => ?_, ?_, ?_, fun kernel hkernel hcomm => ?_,
    fun hpolicy => ?_⟩
  · refine htaken.row hlabels hlabel hsegment ?_
    exact ((hconsumes label hlabel).1.semantics segment.name).mpr (List.mem_map_of_mem hsegment)
  · have hflops : ∀ rule ∈ locationMap.locations, ∀ found,
        Holds gpuSpec fallbackDtype policy rule labels found →
          found.minFlops = ruleTotal (·.flops) rule labels := fun _ _ _ hfound => hfound.flops
    exact htaken.kernelSum_eq hnamed rfl hflops
      (htaken.eq_zero hflops fun _ hnone => hnone.ruleTotal.1)
  · have hbytes : ∀ rule ∈ locationMap.locations, ∀ found,
        Holds gpuSpec fallbackDtype policy rule labels found →
          found.minBytes = ruleTotal (·.bytes) rule labels := fun _ _ _ hfound => hfound.bytes
    exact htaken.kernelSum_eq hnamed rfl hbytes
      (htaken.eq_zero hbytes fun _ hnone => hnone.ruleTotal.2)
  · obtain ⟨before, -, rfl⟩ := List.mem_map.mp hkernel
    exact if_pos hcomm
  · refine htaken.kernelSum_eq hnamed rfl (fun rule _ found hfoundHolds => ?_)
      fun rule hmem hnot found hlookup => (htaken.workless rule hmem hnot).2 found hlookup
    rcases hfoundHolds.roofline with hroof | ⟨hlength, hlocked, -⟩
    · exact hroof
    · exact (hpolicy.elim hlength hlocked).elim

theorem attributeLabelRefs_call {catalog : LocationCatalog} {poolTag : String}
    {kernelLocations : List KernelLocation} {labels : List (IterationLabel × Nat)}
    {gpuSpec : GpuSpec} {gpuCount : ℚ} {policy : NecessaryWorkPolicy} {ladder : KernelLadder} :
    let called := (catalog.attributeLabelRefs poolTag kernelLocations labels gpuSpec gpuCount
      policy).call ladder
    (∀ message, called.1 = .error message → called.2 = ladder) ∧
      ∀ attribution, called.1 = .ok attribution → ∃ located,
        catalog.locate poolTag kernelLocations labels gpuSpec gpuCount policy = .ok located ∧
          attributed located.1 kernelLocations policy located.2 ladder = .ok called.2 := by
  intro called
  have hcalled : called = (catalog.attributeLabelRefs poolTag kernelLocations labels gpuSpec
    gpuCount policy).call ladder := rfl
  cases hlocate : catalog.locate poolTag kernelLocations labels gpuSpec gpuCount policy with
  | error message =>
    have heq : called = (.error message, ladder) := by
      rw [hcalled, LocationCatalog.attributeLabelRefs, hlocate]
      rfl
    rw [heq]
    exact ⟨fun _ _ => rfl, fun attribution h => by cases h⟩
  | ok located =>
    cases hattributed : attributed located.1 kernelLocations policy located.2 ladder with
    | error message =>
      have heq : called = (.error message, ladder) := by
        rw [hcalled, LocationCatalog.attributeLabelRefs, hlocate]
        show (ExceptT.run (do
          let ladder ← (attributed located.1 kernelLocations policy located.2 ladder :
            Attributing KernelLadder)
          set ladder
          return (⟨located.1.mappingId⟩ : LocationAttribution))).run ladder = _
        rw [hattributed]
        rfl
      rw [heq]
      exact ⟨fun _ _ => rfl, fun attribution h => by cases h⟩
    | ok after =>
      have heq : called = (.ok ⟨located.1.mappingId⟩, after) := by
        rw [hcalled, LocationCatalog.attributeLabelRefs, hlocate]
        show (ExceptT.run (do
          let ladder ← (attributed located.1 kernelLocations policy located.2 ladder :
            Attributing KernelLadder)
          set ladder
          return (⟨located.1.mappingId⟩ : LocationAttribution))).run ladder = _
        rw [hattributed]
        rfl
      rw [heq]
      exact ⟨(fun message h => by cases h), fun _ _ => ⟨located, rfl, hattributed⟩⟩

theorem locate_holds {catalog : LocationCatalog} {poolTag : String}
    {labels : List (IterationLabel × Nat)}
    {gpuSpec : GpuSpec} {gpuCount : ℚ} {policy : NecessaryWorkPolicy}
    (hlabels : ∀ label ∈ labels, Labelled label.1) {located : LocationMap × Located}
    (h : catalog.locate poolTag kernelLocations labels gpuSpec gpuCount policy = .ok located) :
    labels ≠ [] ∧ 0 < gpuSpec.memBandwidthGbps ∧ ∃ fallbackDtype,
      (∀ label ∈ labels, Consumes located.1 kernelLocations label.1.segments ∧
        ∀ segment ∈ label.1.segments,
          0 < gpuSpec.peakTflops (segment.computeDtype.getD fallbackDtype)) ∧
      HoldsAll gpuSpec fallbackDtype policy located.1.locations labels
        located.2.workByLocation := by
  simp only [LocationCatalog.locate, bind_eq_ok_iff, Except.ok.injEq] at h
  obtain ⟨_, hne, poolSpec, -, locationMap, -, _, hbandwidth, state, hstate, rfl⟩ := h
  have hstart : HoldsAll gpuSpec poolSpec.fallbackDtype policy locationMap.locations [] [] :=
    ⟨fun _ _ => rfl, fun _ _ => .inl ⟨rfl, rfl⟩⟩
  obtain ⟨heach, hother, hall⟩ := addLabels_holds hlabels hstart hstate
  refine ⟨ensure_eq_ok_iff.mp hne, ensure_eq_ok_iff.mp hbandwidth, poolSpec.fallbackDtype, heach,
    fun name hname => ?_, fun rule hrule => ?_⟩
  · rw [Dictionary.lookup_map_value, hother name hname]
    rfl
  · rw [Dictionary.lookup_map_value]
    rcases hall rule hrule with ⟨hnil, hnone⟩ | ⟨hsome, found, hfound, hholds⟩
    · exact .inl ⟨hnil, by rw [hnone]; rfl⟩
    · refine .inr ⟨hsome, found.setWorkerWallTime gpuCount, by rw [hfound]; rfl, ?_⟩
      exact ⟨hholds.semantics, hholds.flops, hholds.bytes, hholds.compute, hholds.memory,
        hholds.roofline⟩

/-- What a call does to the caller's ladder. -/
def Outcome (kernelLocations : List KernelLocation) (labels : List (IterationLabel × Nat))
    (policy : NecessaryWorkPolicy) (ladder : KernelLadder)
    (called : Except String LocationAttribution × KernelLadder) : Prop :=
  (∀ message, called.1 = .error message → called.2 = ladder) ∧
    ((∀ label ∈ labels, Labelled label.1) → (∀ kernel ∈ ladder.kernels, kernel.isComm = true →
        kernel.name ∉ expectedLocations kernelLocations) →
      ∀ attribution, called.1 = .ok attribution → ConsumedOnce labels policy called.2.kernels)

theorem attributeLabelRefs_outcome (catalog : LocationCatalog) (poolTag : String)
    (kernelLocations : List KernelLocation) (labels : List (IterationLabel × Nat))
    (gpuSpec : GpuSpec) (gpuCount : ℚ) (policy : NecessaryWorkPolicy) (ladder : KernelLadder) :
    Outcome kernelLocations labels policy ladder ((catalog.attributeLabelRefs poolTag
      kernelLocations labels gpuSpec gpuCount policy).call ladder) := by
  obtain ⟨hfailed, hdone⟩ := @attributeLabelRefs_call catalog poolTag kernelLocations labels
    gpuSpec gpuCount policy ladder
  refine ⟨hfailed, fun hlabels hladder attribution hok => ?_⟩
  obtain ⟨located, hlocated, hattributed⟩ := hdone attribution hok
  obtain ⟨hne, hbandwidth, fallbackDtype, hconsumes, hholds⟩ := locate_holds hlabels hlocated
  exact attributed_consumes hne hlabels hladder hbandwidth hconsumes hholds hattributed

/-- A failed attribution leaves the ladder as it was. One that succeeds, of labels whose rows are
distinct and need time wherever they do work, to a ladder whose communication is not at a mapped
location, counts every row with work in one local kernel, and all of it. -/
theorem attribution_consumes_once (catalog : LocationCatalog) (poolTag : String)
    (kernelLocations : List KernelLocation) (gpuSpec : GpuSpec) (gpuCount : ℚ)
    (policy : NecessaryWorkPolicy) (ladder : KernelLadder) :
    (∀ label, Outcome kernelLocations [(label, 1)] policy ladder ((catalog.attributeLadder poolTag
      kernelLocations label gpuSpec gpuCount policy).call ladder)) ∧
    ∀ composition, Outcome kernelLocations composition.labels policy ladder
      ((catalog.attributeComposedLadder poolTag kernelLocations composition gpuSpec gpuCount
        policy).call ladder) :=
  ⟨fun _ => attributeLabelRefs_outcome .., fun _ => attributeLabelRefs_outcome ..⟩

/-- One pool with a location for each of two rows. -/
def twoRows : LocationCatalog where
  maps := [⟨1, "test", ["arch"], [⟨"gemm", ["qkv"]⟩, ⟨"norm", ["rms"]⟩]⟩]
  poolSpecs := [("main", ⟨"arch", "bf16"⟩)]
  pipelinedPools := []

def twoLocations : List KernelLocation :=
  [⟨"gemm", "single_gemm", false⟩, ⟨"norm", "rms_norm", false⟩]

/-- A worker's ladder of one second, spent at the given locations. -/
def secondLadder (kernels : List KernelContribution) : KernelLadder where
  scope := .worker "main" 0
  rungs := ⟨1, 1, 1, 1, 1, 1, 1, 1, none, none⟩
  specialChunks := ⟨0, 0, none⟩
  kernels := kernels
  necessaryWorkPolicy := none

def gemmKernel : KernelContribution := ⟨"gemm", "single_gemm", false, ⟨1, 1, 1, 1, 1, 1⟩, none⟩

def teraSpec : GpuSpec := ⟨fun _ => 1, 1000⟩

/-- A forward of a second, with what the second row is. -/
def forward (segmented : ℚ) (rms : List SemanticWork) : IterationLabel :=
  ⟨⟨1, segmented⟩, ⟨"qkv", 10 ^ 12, 10 ^ 12, 1, none⟩ :: rms⟩

def attributedForward (kernels : List KernelContribution) (label : IterationLabel) :
    Except String LocationAttribution × KernelLadder :=
  (twoRows.attributeLadder "main" twoLocations label teraSpec 1 .batchLocked).call
    (secondLadder kernels)

/-- Successful attributions that do not count a row: a row without work at a location without a
kernel, work that needs no time at such a location, the first of two rows of one name, and work
below the tolerance at a location the ladder has for communication. -/
theorem row_not_counted :
    let idle := attributedForward [gemmKernel] (forward 1 [⟨"rms", 0, 0, 0, none⟩])
    let timeless := attributedForward [gemmKernel] (forward 1 [⟨"rms", 5, 0, 0, none⟩])
    let twice := attributedForward [gemmKernel]
      (forward 2 [⟨"rms", 5, 0, 1, none⟩, ⟨"rms", 7, 0, 1, none⟩])
    let tiny := attributedForward
      [gemmKernel, ⟨"norm", "all_reduce", true, KernelRungs.default, none⟩]
      (forward 1 [⟨"rms", 1, 0, 1 / 10 ^ 12, none⟩])
    (idle.1.isOk ∧ counting "rms" idle.2.kernels = []) ∧
      (timeless.1.isOk ∧ KernelLadder.kernelSum timeless.2.kernels
        (KernelLadder.workOr0 (·.minFlops)) = 10 ^ 12) ∧
      (twice.1.isOk ∧ KernelLadder.kernelSum twice.2.kernels
        (KernelLadder.workOr0 (·.minFlops)) = 10 ^ 12 + 7) ∧
      tiny.1.isOk ∧ KernelLadder.kernelSum tiny.2.kernels
        (KernelLadder.workOr0 (·.minFlops)) = 10 ^ 12 := by
  decide +kernel

/-- A forward whose second row has its own location and no kernel there yet. -/
theorem attribution_consumes_once_forward :
    ConsumedOnce [(forward 2 [⟨"rms", 5, 10 ^ 12, 1, none⟩], 1)] .batchLocked
      (attributedForward [gemmKernel] (forward 2 [⟨"rms", 5, 10 ^ 12, 1, none⟩])).2.kernels := by
  have hoks : (attributedForward [gemmKernel]
      (forward 2 [⟨"rms", 5, 10 ^ 12, 1, none⟩])).1.isOk := by decide +kernel
  have hlabelled : Labelled (forward 2 [⟨"rms", 5, 10 ^ 12, 1, none⟩]) := by
    refine ⟨by decide, ?_, ?_, ?_, ?_⟩ <;> simp [forward]
  cases hcalled : (attributedForward [gemmKernel]
      (forward 2 [⟨"rms", 5, 10 ^ 12, 1, none⟩])).1 with
  | error message =>
    rw [hcalled] at hoks
    cases hoks
  | ok attribution =>
    refine ((attribution_consumes_once twoRows "main" twoLocations teraSpec 1 .batchLocked
      (secondLadder [gemmKernel])).1 _).2 (fun label hlabel => ?_) (fun kernel hkernel hcomm => ?_)
      attribution hcalled
    · rw [List.mem_singleton.mp hlabel]
      exact hlabelled
    · rw [List.mem_singleton.mp hkernel] at hcomm
      cases hcomm

end Optimality

end ServingSim
