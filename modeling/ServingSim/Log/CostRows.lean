import ServingSim.Log.CostBatches

/-
  No row of a cost log is lost, doubled or paired with a neighbour's slots.

  A row's own groups, slots and slot inputs start where the lengths of the rows before it
  end. Whatever the limit, the batches are these rows cut into consecutive groups: the
  cursors, the builders and the index ranges always speak of the same rows.

  What is proved:
    1. `cost_record_batches` — when a chunk is refused, and what it becomes otherwise.
-/

namespace ServingSim

namespace CostBatches

variable {Num SlotInput : Type}

/-! ## Slices -/

theorem slice_slice {α : Type} {l : List α} {a b x y : Nat} (h : a + y ≤ b) :
    slice (slice l a b) x y = slice l (a + x) (a + y) := by
  rw [slice, slice, slice, List.take_drop, List.take_take, min_eq_left h, List.drop_drop]

theorem slice_self {α : Type} (l : List α) (a : Nat) : slice l a a = [] :=
  List.drop_eq_nil_of_le (List.length_take_le a l)

theorem slice_succ {α : Type} {l : List α} {a b : Nat} {x : α} (hab : a ≤ b)
    (hx : l[b]? = some x) : slice l a (b + 1) = slice l a b ++ [x] := by
  obtain ⟨hb, -⟩ := List.getElem?_eq_some_iff.mp hx
  rw [slice, slice, List.take_add_one, hx, Option.toList_some, List.drop_append_of_le_length]
  rw [List.length_take, min_eq_left hb.le]
  exact hab

theorem length_slice {α : Type} {l : List α} {a b : Nat} (hb : b ≤ l.length) :
    (slice l a b).length = b - a := by
  rw [slice, List.length_drop, List.length_take, min_eq_left hb]

/-! ## Slot inputs -/

def endsFrom (serde : Serializer SlotInput) : Nat → List SlotInput → List Nat
  | _, [] => []
  | start, slot :: slots =>
    let stop := start + (slotBytes serde slot).length
    stop :: endsFrom serde stop slots

theorem rowJson_eq (serde : Serializer SlotInput) (slots : List SlotInput) :
    rowJson serde slots = (slots.flatMap (slotBytes serde), endsFrom serde 0 slots) := by
  have hfrom : ∀ (slots : List SlotInput) (json : List UInt8) (ends : List Nat),
      slots.foldl (fun written slot =>
        let json := written.1 ++ slotBytes serde slot
        (json, written.2 ++ [json.length])) (json, ends) =
      (json ++ slots.flatMap (slotBytes serde), ends ++ endsFrom serde json.length slots) := by
    intro slots
    induction slots with
    | nil => intro json ends; simp [endsFrom]
    | cons slot slots ih =>
      intro json ends
      rw [List.foldl_cons, ih, List.flatMap_cons, endsFrom, List.length_append, List.append_assoc,
        List.append_assoc]
      rfl
  exact (hfrom slots [] []).trans (by simp)

theorem textsFrom_rowJson (serde : Serializer SlotInput) (slots : List SlotInput) :
    textsFrom (rowJson serde slots).1 (rowJson serde slots).2 0 =
      slots.map fun slot => textOf (slotBytes serde slot) := by
  have hfrom : ∀ (slots : List SlotInput) (done : List UInt8),
      textsFrom (done ++ slots.flatMap (slotBytes serde)) (endsFrom serde done.length slots)
        done.length = slots.map fun slot => textOf (slotBytes serde slot) := by
    intro slots
    induction slots with
    | nil => intro done; rfl
    | cons slot slots ih =>
      intro done
      have hown : slice (done ++ (slotBytes serde slot ++ slots.flatMap (slotBytes serde)))
          done.length (done.length + (slotBytes serde slot).length) = slotBytes serde slot := by
        rw [slice, List.take_length_add_append, List.drop_left, List.take_left]
      have hrest := ih (done ++ slotBytes serde slot)
      rw [List.length_append, List.append_assoc] at hrest
      rw [List.flatMap_cons, endsFrom, textsFrom, hown, hrest, List.map_cons]
  rw [rowJson_eq]
  exact hfrom slots []

/-! ## Rows -/

/-- A row with all that is its own. -/
structure CostRow (Num SlotInput : Type) where
  entry : CostLogEntry Num
  groups : List GroupInputLog
  slotTimes : List Num
  slotCovs : List Nat
  slotFlops : List Num
  slotBytes : List Num
  slotBackends : List Nat
  slotInputs : List SlotInput

/-- What the rows before `row` own together. -/
def before (length : CostLogEntry Num → Nat) (chunk : CostLogChunk Num SlotInput) (row : Nat) :
    Nat :=
  ((chunk.entries.take row).map length).sum

/-- The row by the running lengths. -/
def rowAt (chunk : CostLogChunk Num SlotInput) (row : Nat) (entry : CostLogEntry Num) :
    CostRow Num SlotInput :=
  let slots := before (·.slotLen) chunk row
  let inputs := before (·.slotInputLen) chunk row
  let groups := before (·.groupLen) chunk row
  { entry := entry
    groups := slice chunk.groupLogs groups (groups + entry.groupLen)
    slotTimes := slice chunk.slotTimes slots (slots + entry.slotLen)
    slotCovs := slice chunk.slotCovs slots (slots + entry.slotLen)
    slotFlops := slice chunk.slotFlops slots (slots + entry.slotLen)
    slotBytes := slice chunk.slotBytes slots (slots + entry.slotLen)
    slotBackends := slice chunk.slotBackends slots (slots + entry.slotLen)
    slotInputs := slice chunk.slotInputs inputs (inputs + entry.slotInputLen) }

def rowsBetween (chunk : CostLogChunk Num SlotInput) (first stop : Nat) :
    List (CostRow Num SlotInput) :=
  ((slice chunk.entries first stop).zipIdx first).map fun entry => rowAt chunk entry.2 entry.1

/-- The rows of a chunk, in order. -/
def rowsOf (chunk : CostLogChunk Num SlotInput) : List (CostRow Num SlotInput) :=
  chunk.entries.zipIdx.map fun entry => rowAt chunk entry.2 entry.1

/-- A row's slot-input JSON, in bytes. -/
def jsonBytes (serde : Serializer SlotInput) (row : CostRow Num SlotInput) : Nat :=
  (row.slotInputs.flatMap (slotBytes serde)).length

/-- The batch that holds exactly these rows. -/
def ofRows (serde : Serializer SlotInput) (poolTag : String) (rows : List (CostRow Num SlotInput)) :
    RecordBatch Num where
  poolTag := rows.map fun _ => poolTag
  workerId := rows.map (·.entry.workerId)
  iterId := rows.map (·.entry.iterId)
  batchId := rows.map (·.entry.batchId)
  wallStartMs := rows.map (·.entry.wallStartMs)
  totalTimeMs := rows.map (·.entry.totalTimeMs)
  energyJ := rows.map (·.entry.energyJ)
  groups := rows.map fun row => row.groups.map (groupRow serde)
  slotTimeMs := rows.map (·.slotTimes)
  slotCoverage := rows.map (·.slotCovs)
  slotInput := rows.map fun row => row.slotInputs.map fun slot => textOf (slotBytes serde slot)
  sectionName := rows.map (·.entry.sectionName)
  layer := rows.map (·.entry.layer)
  slotFlops := rows.map (·.slotFlops)
  slotBytes := rows.map (·.slotBytes)
  slotBackend := rows.map (·.slotBackends)

/-- The builders that hold exactly these rows. -/
def listsOf (serde : Serializer SlotInput) (rows : List (CostRow Num SlotInput)) :
    SlotListBuilders Num where
  time := rows.map (·.slotTimes)
  coverage := rows.map (·.slotCovs)
  flops := rows.map (·.slotFlops)
  bytes := rows.map (·.slotBytes)
  backend := rows.map (·.slotBackends)
  input := rows.map fun row => row.slotInputs.map fun slot => textOf (slotBytes serde slot)
  slotInputBytes := (rows.map (jsonBytes serde)).sum

section chunk

variable {serde : Serializer SlotInput} {chunk : CostLogChunk Num SlotInput}

theorem before_succ {length : CostLogEntry Num → Nat} {row : Nat} {entry : CostLogEntry Num}
    (h : chunk.entries[row]? = some entry) :
    before length chunk (row + 1) = before length chunk row + length entry := by
  rw [before, before, List.take_add_one, h]
  simp

theorem before_le_total (length : CostLogEntry Num → Nat) (row : Nat) :
    before length chunk row ≤ (chunk.entries.map length).sum := by
  rw [before, List.map_take]
  exact (List.take_sublist _ _).sum_le_sum fun _ _ => Nat.zero_le _

theorem before_length (length : CostLogEntry Num → Nat) :
    before length chunk chunk.entries.length = (chunk.entries.map length).sum := by
  rw [before, List.take_length]

theorem rowsBetween_self (first : Nat) : rowsBetween chunk first first = [] := by
  rw [rowsBetween, slice_self]
  rfl

theorem rowsBetween_succ {first row : Nat} {entry : CostLogEntry Num} (h : first ≤ row)
    (hentry : chunk.entries[row]? = some entry) :
    rowsBetween chunk first (row + 1) = rowsBetween chunk first row ++ [rowAt chunk row entry] := by
  obtain ⟨hrow, -⟩ := List.getElem?_eq_some_iff.mp hentry
  rw [rowsBetween, slice_succ h hentry, List.zipIdx_append, List.map_append, length_slice hrow.le,
    Nat.add_sub_of_le h]
  rfl

theorem rowsBetween_append {first middle : Nat} (hfirst : first ≤ middle) :
    ∀ count, middle + count ≤ chunk.entries.length →
      rowsBetween chunk first middle ++ rowsBetween chunk middle (middle + count) =
        rowsBetween chunk first (middle + count) := by
  intro count
  induction count with
  | zero => intro _; rw [Nat.add_zero, rowsBetween_self, List.append_nil]
  | succ count ih =>
    intro hle
    have hentry : chunk.entries[middle + count]? = some chunk.entries[middle + count] :=
      List.getElem?_eq_getElem (by omega)
    rw [← Nat.add_assoc, rowsBetween_succ (by omega) hentry, rowsBetween_succ (by omega) hentry,
      ← List.append_assoc, ih (by omega)]

theorem rowsBetween_all : rowsBetween chunk 0 chunk.entries.length = rowsOf chunk := by
  rw [rowsBetween, slice, List.take_length, List.drop_zero, rowsOf]

theorem entries_rowsBetween {first stop : Nat} :
    (rowsBetween chunk first stop).map (·.entry) = slice chunk.entries first stop := by
  rw [rowsBetween, List.map_map]
  exact List.zipIdx_map_fst first _

theorem appendRow_listsOf {rows : List (CostRow Num SlotInput)} {row : Nat}
    {entry : CostLogEntry Num} :
    let slots := before (·.slotLen) chunk row
    let inputs := before (·.slotInputLen) chunk row
    let written := rowJson serde (slice chunk.slotInputs inputs (inputs + entry.slotInputLen))
    (listsOf serde rows).appendRow chunk slots (slots + entry.slotLen) written.1 written.2 =
      listsOf serde (rows ++ [rowAt chunk row entry]) := by
  intro slots inputs written
  have htexts : textsFrom written.1 written.2 0 =
      (rowAt chunk row entry).slotInputs.map fun slot => textOf (slotBytes serde slot) :=
    textsFrom_rowJson serde _
  have hbytes : written.1.length = jsonBytes serde (rowAt chunk row entry) := by
    show (rowJson serde _).1.length = _
    rw [rowJson_eq]
    rfl
  simp only [SlotListBuilders.appendRow, listsOf, htexts, hbytes, List.map_append,
    List.map_cons, List.map_nil, List.sum_append, List.sum_cons, List.sum_nil, Nat.add_zero]
  rfl

theorem buildGroupsColumn_concat (groupLogs : List GroupInputLog)
    (entries : List (CostLogEntry Num)) (entry : CostLogEntry Num) (cursor : Nat) :
    buildGroupsColumn serde groupLogs (entries ++ [entry]) cursor =
      buildGroupsColumn serde groupLogs entries cursor ++
        [(slice groupLogs (cursor + (entries.map (·.groupLen)).sum)
          (cursor + (entries.map (·.groupLen)).sum + entry.groupLen)).map (groupRow serde)] := by
  induction entries generalizing cursor with
  | nil => rfl
  | cons first entries ih =>
    rw [List.cons_append, buildGroupsColumn, ih, buildGroupsColumn, List.map_cons, List.sum_cons,
      ← Nat.add_assoc]
    rfl

theorem sum_slice_groupLen {first : Nat} : ∀ count, first + count ≤ chunk.entries.length →
      before (·.groupLen) chunk first +
        ((slice chunk.entries first (first + count)).map (·.groupLen)).sum =
      before (·.groupLen) chunk (first + count) := by
  intro count
  induction count with
  | zero => intro _; rw [Nat.add_zero, slice_self]; rfl
  | succ count ih =>
    intro hle
    have hentry : chunk.entries[first + count]? = some chunk.entries[first + count] :=
      List.getElem?_eq_getElem (by omega)
    rw [← Nat.add_assoc, slice_succ (by omega) hentry, before_succ hentry, ← ih (by omega),
      List.map_append, List.sum_append, ← Nat.add_assoc]
    rfl

theorem buildGroupsColumn_slice {first stopGroup : Nat} :
    ∀ count, first + count ≤ chunk.entries.length →
      before (·.groupLen) chunk (first + count) ≤ stopGroup →
      buildGroupsColumn serde (slice chunk.groupLogs (before (·.groupLen) chunk first) stopGroup)
          (slice chunk.entries first (first + count)) 0 =
        (rowsBetween chunk first (first + count)).map fun row =>
          row.groups.map (groupRow serde) := by
  intro count
  induction count with
  | zero => intro _ _; rw [Nat.add_zero, slice_self, rowsBetween_self]; rfl
  | succ count ih =>
    intro hle hstop
    have hentry : chunk.entries[first + count]? = some chunk.entries[first + count] :=
      List.getElem?_eq_getElem (by omega)
    rw [← Nat.add_assoc, before_succ hentry] at hstop
    have hsum : before (·.groupLen) chunk first +
        ((slice chunk.entries first (first + count)).map (·.groupLen)).sum =
      before (·.groupLen) chunk (first + count) := sum_slice_groupLen count (by omega)
    rw [← Nat.add_assoc, slice_succ (by omega) hentry, rowsBetween_succ (by omega) hentry,
      buildGroupsColumn_concat, ih (by omega) (by omega), List.map_append, Nat.zero_add,
      slice_slice (by omega), ← Nat.add_assoc, hsum]
    rfl

theorem tryNew_ofRows (rows : List (CostRow Num SlotInput)) :
    RecordBatch.tryNew (ofRows serde chunk.poolTag rows) =
      .ok (ofRows serde chunk.poolTag rows) := by
  rw [RecordBatch.tryNew, ensure_eq_ok_iff.mpr (by simp [ofRows])]
  rfl

theorem before_mono (length : CostLogEntry Num → Nat) {first stop : Nat} (h : first ≤ stop) :
    before length chunk first ≤ before length chunk stop := by
  rw [before, before, List.map_take, List.map_take]
  exact (List.take_sublist_take_left h).sum_le_sum fun _ _ => Nat.zero_le _

theorem finish_rows {first count stopGroup : Nat} (hle : first + count ≤ chunk.entries.length)
    (hstop : before (·.groupLen) chunk (first + count) ≤ stopGroup)
    (hlogs : stopGroup ≤ chunk.groupLogs.length) :
    finish serde chunk (listsOf serde (rowsBetween chunk first (first + count))) first
        (first + count) (before (·.groupLen) chunk first) stopGroup =
      .ok (ofRows serde chunk.poolTag (rowsBetween chunk first (first + count)), {}) := by
  have hentries := @entries_rowsBetween _ _ chunk first (first + count)
  have hgroups := @buildGroupsColumn_slice _ _ serde chunk first stopGroup count hle hstop
  have hrange : before (·.groupLen) chunk first ≤ stopGroup :=
    (before_mono _ (Nat.le_add_right first count)).trans hstop
  rw [← hentries] at hgroups
  rw [finish]
  simp only [← hentries, hgroups, List.map_map, ensure_eq_ok_iff.mpr (And.intro hrange hlogs)]
  show (do
    let batch ← RecordBatch.tryNew
      (ofRows serde chunk.poolTag (rowsBetween chunk first (first + count)))
    return (batch, ({} : SlotListBuilders Num))) = _
  rw [tryNew_ofRows]
  rfl

/-! ## The loop -/

/-- The row's own values are in the buffers, and its JSON within the limit. -/
structure Fits (serde : Serializer SlotInput) (chunk : CostLogChunk Num SlotInput) (limit row : Nat)
    (entry : CostLogEntry Num) : Prop where
  slots : SlotsWithin chunk (before (·.slotLen) chunk row + entry.slotLen)
  inputs : before (·.slotInputLen) chunk row + entry.slotInputLen ≤ chunk.slotInputs.length
  bytes : jsonBytes serde (rowAt chunk row entry) ≤ limit

/-- The loop before `row`: closed batches of earlier rows, and builders that hold the rest. -/
structure Cut (serde : Serializer SlotInput) (chunk : CostLogChunk Num SlotInput) (limit row : Nat)
    (cutting : Cutting Num) : Prop where
  slots : cutting.slotCursor = before (·.slotLen) chunk row
  inputs : cutting.slotInputCursor = before (·.slotInputLen) chunk row
  groups : cutting.groupCursor = before (·.groupLen) chunk row
  firstGroup : cutting.batchFirstGroup = before (·.groupLen) chunk cutting.batchFirstRow
  firstRow : cutting.batchFirstRow ≤ row
  started : cutting.batchFirstRow = row → row = 0
  closed : ∃ cuts : List (List (CostRow Num SlotInput)),
    cutting.batches = cuts.map (ofRows serde chunk.poolTag) ∧
    cuts.flatten = rowsBetween chunk 0 cutting.batchFirstRow ∧
    ∀ cut ∈ cuts, (cut.map (jsonBytes serde)).sum ≤ limit ∧ cut ≠ []
  lists : cutting.lists = listsOf serde (rowsBetween chunk cutting.batchFirstRow row)
  bytes : ((rowsBetween chunk cutting.batchFirstRow row).map (jsonBytes serde)).sum ≤ limit

theorem cut_start (limit : Nat) : Cut serde chunk limit 0 ({} : Cutting Num) :=
  ⟨rfl, rfl, rfl, rfl, le_refl 0, fun _ => rfl,
    ⟨[], rfl, (rowsBetween_self 0).symm, fun _ h => absurd h List.not_mem_nil⟩,
    (by rw [rowsBetween_self]; rfl), (by rw [rowsBetween_self]; exact Nat.zero_le _)⟩

variable {cutting : Cutting Num}

section

variable {limit row : Nat}
  (hgroups : (chunk.entries.map (·.groupLen)).sum ≤ chunk.groupLogs.length)
  (h : Cut serde chunk limit row cutting) {entry : CostLogEntry Num}
  (hentry : chunk.entries[row]? = some entry)

include limit row hgroups h entry hentry

theorem Cut.cutBefore (hbytes : jsonBytes serde (rowAt chunk row entry) ≤ limit) :
    ∃ cut, cutBefore serde chunk limit cutting row (jsonBytes serde (rowAt chunk row entry)) =
        .ok cut ∧ cut.slotCursor = cutting.slotCursor ∧
      cut.slotInputCursor = cutting.slotInputCursor ∧
      cut.batchFirstGroup = before (·.groupLen) chunk cut.batchFirstRow ∧
      cut.batchFirstRow ≤ row ∧
      (∃ cuts : List (List (CostRow Num SlotInput)),
        cut.batches = cuts.map (ofRows serde chunk.poolTag) ∧
        cuts.flatten = rowsBetween chunk 0 cut.batchFirstRow ∧
        ∀ rows ∈ cuts, (rows.map (jsonBytes serde)).sum ≤ limit ∧ rows ≠ []) ∧
      cut.lists = listsOf serde (rowsBetween chunk cut.batchFirstRow row) ∧
      ((rowsBetween chunk cut.batchFirstRow row).map (jsonBytes serde)).sum +
        jsonBytes serde (rowAt chunk row entry) ≤ limit := by
  obtain ⟨hrow, -⟩ := List.getElem?_eq_some_iff.mp hentry
  obtain ⟨cuts, hbatches, hflatten, hcuts⟩ := h.closed
  rw [CostBatches.cutBefore]
  split
  · next hfull =>
    -- the batch is full: its rows become one cut, and the next batch starts empty
    obtain ⟨count, hcount⟩ := Nat.exists_eq_add_of_le h.firstRow
    have hlast := hfull.1
    have hfinish := @finish_rows _ _ serde chunk cutting.batchFirstRow count cutting.groupCursor
      (by omega) (by rw [← hcount]; exact h.groups.ge)
      (h.groups ▸ (before_le_total _ row).trans hgroups)
    rw [← hcount, ← h.lists, ← h.firstGroup] at hfinish
    rw [hfinish]
    refine ⟨_, rfl, rfl, rfl, h.groups, le_refl row,
      ⟨cuts ++ [rowsBetween chunk cutting.batchFirstRow row], ?_, ?_, ?_⟩, ?_, ?_⟩
    · rw [List.map_append, ← hbatches]
      rfl
    · have happend : rowsBetween chunk 0 cutting.batchFirstRow ++
          rowsBetween chunk cutting.batchFirstRow (cutting.batchFirstRow + count) =
          rowsBetween chunk 0 (cutting.batchFirstRow + count) :=
        rowsBetween_append (Nat.zero_le _) count (by omega)
      rw [← hcount] at happend
      rw [List.flatten_append, hflatten, List.flatten_singleton]
      exact happend
    · intro rows hrows
      rcases List.mem_append.mp hrows with hold | hnew
      · exact hcuts rows hold
      · rw [List.mem_singleton.mp hnew]
        refine ⟨h.bytes, fun hnil => ?_⟩
        have hlength := congrArg List.length (@entries_rowsBetween _ _ chunk
          cutting.batchFirstRow row)
        rw [hnil, length_slice hrow.le] at hlength
        simp only [List.map_nil, List.length_nil] at hlength
        omega
    · show ({} : SlotListBuilders Num) = _
      rw [rowsBetween_self]
      rfl
    · show ((rowsBetween chunk row row).map (jsonBytes serde)).sum + _ ≤ limit
      rw [rowsBetween_self, List.map_nil, List.sum_nil, Nat.zero_add]
      exact hbytes
  · next hroom =>
    refine ⟨cutting, rfl, rfl, rfl, h.firstGroup, h.firstRow, h.closed, h.lists, ?_⟩
    have hsum : cutting.lists.slotInputBytes =
        ((rowsBetween chunk cutting.batchFirstRow row).map (jsonBytes serde)).sum := by
      rw [h.lists]
      rfl
    rw [hsum] at hroom
    by_cases hfirst : cutting.batchFirstRow = row
    · rw [hfirst, rowsBetween_self, List.map_nil, List.sum_nil, Nat.zero_add]
      exact hbytes
    · have hle := h.firstRow
      exact not_lt.mp fun hgt => hroom ⟨by omega, hgt⟩

theorem Cut.step :
    (Fits serde chunk limit row entry → ∃ next,
      cutRow serde chunk limit cutting (entry, row) = .ok next ∧
        Cut serde chunk limit (row + 1) next) ∧
      ∀ next, cutRow serde chunk limit cutting (entry, row) = .ok next →
        Fits serde chunk limit row entry := by
  have hjson : (rowJson serde (slice chunk.slotInputs cutting.slotInputCursor
      (cutting.slotInputCursor + entry.slotInputLen))).1.length =
        jsonBytes serde (rowAt chunk row entry) := by
    rw [rowJson_eq, h.inputs]
    rfl
  constructor
  · intro hfits
    obtain ⟨cut, hcut, hslots, hinputs, hfirstGroup, hfirstRow, hclosed, hlists, hbytes⟩ :=
      h.cutBefore hgroups hentry hfits.bytes
    have h1 := hfits.slots
    have h2 := hfits.inputs
    rw [← h.slots] at h1
    rw [← h.inputs] at h2
    refine ⟨{ cut with
      lists := cut.lists.appendRow chunk cutting.slotCursor (cutting.slotCursor + entry.slotLen)
        (rowJson serde (slice chunk.slotInputs cutting.slotInputCursor
          (cutting.slotInputCursor + entry.slotInputLen))).1
        (rowJson serde (slice chunk.slotInputs cutting.slotInputCursor
          (cutting.slotInputCursor + entry.slotInputLen))).2
      slotCursor := cutting.slotCursor + entry.slotLen
      slotInputCursor := cutting.slotInputCursor + entry.slotInputLen
      groupCursor := cutting.groupCursor + entry.groupLen }, ?_, ?_⟩
    · rw [cutRow]
      simp only [hjson, ensure_eq_ok_iff.mpr h1, ensure_eq_ok_iff.mpr h2,
        ensure_eq_ok_iff.mpr hfits.bytes, hcut]
      rfl
    · refine ⟨?_, ?_, ?_, hfirstGroup, Nat.le_succ_of_le hfirstRow, ?_, hclosed, ?_, ?_⟩
      · rw [before_succ hentry, ← h.slots]
      · rw [before_succ hentry, ← h.inputs]
      · rw [before_succ hentry, ← h.groups]
      · intro hfirst
        exact absurd (show cut.batchFirstRow = row + 1 from hfirst) (by omega)
      · rw [rowsBetween_succ hfirstRow hentry, ← appendRow_listsOf, ← hlists, h.slots, h.inputs]
      · rw [rowsBetween_succ hfirstRow hentry, List.map_append, List.sum_append]
        simpa using hbytes
  · intro next hnext
    rw [cutRow] at hnext
    simp only [bind_eq_ok_iff, hjson] at hnext
    obtain ⟨_, hslots, _, hinputs, _, hbytes, -⟩ := hnext
    have hslots := ensure_eq_ok_iff.mp hslots
    have hinputs := ensure_eq_ok_iff.mp hinputs
    rw [h.slots] at hslots
    rw [h.inputs] at hinputs
    exact ⟨hslots, hinputs, ensure_eq_ok_iff.mp hbytes⟩

end

theorem cut_run {limit : Nat}
    (hgroups : (chunk.entries.map (·.groupLen)).sum ≤ chunk.groupLogs.length)
    (rest : List (CostLogEntry Num)) {done : List (CostLogEntry Num)}
    (hentries : chunk.entries = done ++ rest) {cutting : Cutting Num}
    (h : Cut serde chunk limit done.length cutting) :
    ((∀ row entry, done.length ≤ row → chunk.entries[row]? = some entry →
        Fits serde chunk limit row entry) →
      ∃ last, (rest.zipIdx done.length).foldlM (cutRow serde chunk limit) cutting = .ok last) ∧
      ∀ last, (rest.zipIdx done.length).foldlM (cutRow serde chunk limit) cutting = .ok last →
        Cut serde chunk limit chunk.entries.length last ∧
          ∀ row entry, done.length ≤ row → chunk.entries[row]? = some entry →
            Fits serde chunk limit row entry := by
  induction rest generalizing done cutting with
  | nil =>
    have hlength : chunk.entries.length = done.length := by rw [hentries, List.append_nil]
    refine ⟨fun _ => ⟨cutting, rfl⟩, fun last hlast => ?_⟩
    rw [← Except.ok.inj hlast, hlength]
    refine ⟨h, fun row entry hrow hentry => ?_⟩
    have hlt := (List.getElem?_eq_some_iff.mp hentry).1
    omega
  | cons entry rest ih =>
    have hentry : chunk.entries[done.length]? = some entry := by
      rw [hentries, List.getElem?_append_right (le_refl _), Nat.sub_self]
      rfl
    have hnext : chunk.entries = (done ++ [entry]) ++ rest := by
      rw [hentries, List.append_assoc]
      rfl
    have hlength : (done ++ [entry]).length = done.length + 1 := by simp
    obtain ⟨hfits, herror⟩ := h.step hgroups hentry
    rw [List.zipIdx_cons, List.foldlM_cons]
    constructor
    · intro hall
      obtain ⟨next, hstep, hcut⟩ := hfits (hall _ entry (le_refl _) hentry)
      rw [← hlength] at hcut
      obtain ⟨last, hlast⟩ := (ih hnext hcut).1 fun row other hrow hother =>
        hall row other (by omega) hother
      refine ⟨last, ?_⟩
      rw [hstep, ← hlength]
      exact hlast
    · intro last hlast
      obtain ⟨next, hstep, hrest⟩ := bind_eq_ok_iff.mp hlast
      have hfit := herror next hstep
      obtain ⟨next', hstep', hcut⟩ := hfits hfit
      rw [hstep] at hstep'
      obtain rfl := Except.ok.inj hstep'
      rw [← hlength] at hcut hrest
      obtain ⟨hend, hlater⟩ := (ih hnext hcut).2 last hrest
      refine ⟨hend, fun row other hrow hother => ?_⟩
      rcases hrow.lt_or_eq with hlt | rfl
      · exact hlater row other (by omega) hother
      · rw [hentry] at hother
        obtain rfl := Option.some.inj hother
        exact hfit

/-! ## Chunks -/

/-- The rows' lengths add up to the buffers, and no row's JSON is over the limit. -/
structure Batchable (serde : Serializer SlotInput) (chunk : CostLogChunk Num SlotInput)
    (limit : Nat) : Prop where
  slots : SlotsUsed chunk (chunk.entries.map (·.slotLen)).sum
  inputs : (chunk.entries.map (·.slotInputLen)).sum = chunk.slotInputs.length
  bytes : ∀ row ∈ rowsOf chunk, jsonBytes serde row ≤ limit

theorem mem_rowsOf {row : CostRow Num SlotInput} :
    row ∈ rowsOf chunk ↔ ∃ i entry, chunk.entries[i]? = some entry ∧ row = rowAt chunk i entry := by
  rw [rowsOf, List.mem_map]
  constructor
  · rintro ⟨⟨entry, i⟩, hmem, rfl⟩
    exact ⟨i, entry, List.mem_zipIdx_iff_getElem?.mp hmem, rfl⟩
  · rintro ⟨i, entry, hentry, rfl⟩
    exact ⟨(entry, i), List.mem_zipIdx_iff_getElem?.mpr hentry, rfl⟩

theorem Batchable.fits {limit : Nat} (h : Batchable serde chunk limit) {row : Nat}
    {entry : CostLogEntry Num} (hentry : chunk.entries[row]? = some entry) :
    Fits serde chunk limit row entry := by
  obtain ⟨h1, h2, h3, h4, h5⟩ := h.slots
  have hslots := @before_le_total _ _ chunk (·.slotLen) (row + 1)
  have hinputs := @before_le_total _ _ chunk (·.slotInputLen) (row + 1)
  rw [before_succ hentry] at hslots hinputs
  exact ⟨⟨h1 ▸ hslots, h2 ▸ hslots, h3 ▸ hslots, h4 ▸ hslots, h5 ▸ hslots⟩, h.inputs ▸ hinputs,
    h.bytes _ (mem_rowsOf.mpr ⟨row, entry, hentry, rfl⟩)⟩

theorem Cut.last {limit : Nat}
    (hgroups : (chunk.entries.map (·.groupLen)).sum ≤ chunk.groupLogs.length)
    (h : Cut serde chunk limit chunk.entries.length cutting) :
    (cutting.batchFirstRow < chunk.entries.length ∨ cutting.batches = []) ∧
      ∃ cuts : List (List (CostRow Num SlotInput)),
        finish serde chunk cutting.lists cutting.batchFirstRow chunk.entries.length
            cutting.batchFirstGroup cutting.groupCursor =
          .ok (ofRows serde chunk.poolTag
            (rowsBetween chunk cutting.batchFirstRow chunk.entries.length), {}) ∧
        cutting.batches ++ [ofRows serde chunk.poolTag
            (rowsBetween chunk cutting.batchFirstRow chunk.entries.length)] =
          cuts.map (ofRows serde chunk.poolTag) ∧
        cuts.flatten = rowsOf chunk ∧
        (∀ cut ∈ cuts, (cut.map (jsonBytes serde)).sum ≤ limit) ∧
        ∀ cut ∈ cuts, cut = [] → chunk.entries = [] := by
  obtain ⟨cuts, hbatches, hflatten, hcuts⟩ := h.closed
  obtain ⟨count, hcount⟩ := Nat.exists_eq_add_of_le h.firstRow
  have hfinish := @finish_rows _ _ serde chunk cutting.batchFirstRow count cutting.groupCursor
    hcount.ge (by rw [← hcount]; exact h.groups.ge)
    (h.groups ▸ (before_le_total _ _).trans hgroups)
  rw [← hcount, ← h.lists, ← h.firstGroup] at hfinish
  have happend : rowsBetween chunk 0 cutting.batchFirstRow ++
      rowsBetween chunk cutting.batchFirstRow (cutting.batchFirstRow + count) =
      rowsBetween chunk 0 (cutting.batchFirstRow + count) :=
    rowsBetween_append (Nat.zero_le _) count hcount.ge
  rw [← hcount, rowsBetween_all] at happend
  refine ⟨?_, cuts ++ [rowsBetween chunk cutting.batchFirstRow chunk.entries.length], hfinish, ?_,
    ?_, ?_, ?_⟩
  · by_cases hfirst : cutting.batchFirstRow = chunk.entries.length
    · -- an empty chunk has one batch, without rows
      right
      have hempty := h.started hfirst
      cases hcase : cuts with
      | nil => rw [hbatches, hcase]; rfl
      | cons cut others =>
        have hnonempty := (hcuts cut (by rw [hcase]; exact List.mem_cons_self)).2
        rw [hcase, hfirst, hempty, rowsBetween_self, List.flatten_cons,
          List.append_eq_nil_iff] at hflatten
        exact absurd hflatten.1 hnonempty
    · exact .inl (lt_of_le_of_ne h.firstRow hfirst)
  · rw [List.map_append, ← hbatches]
    rfl
  · rw [List.flatten_append, List.flatten_singleton, hflatten]
    exact happend
  · intro cut hcut
    rcases List.mem_append.mp hcut with hold | hnew
    · exact (hcuts cut hold).1
    · exact List.mem_singleton.mp hnew ▸ h.bytes
  · intro cut hcut hnil
    rcases List.mem_append.mp hcut with hold | hnew
    · exact absurd hnil (hcuts cut hold).2
    · rw [List.mem_singleton.mp hnew] at hnil
      have hlength := congrArg List.length (@entries_rowsBetween _ _ chunk cutting.batchFirstRow
        chunk.entries.length)
      rw [hnil, length_slice (le_refl _)] at hlength
      simp only [List.map_nil, List.length_nil] at hlength
      have hfirst := h.firstRow
      exact List.length_eq_zero_iff.mp (h.started (by omega))

end chunk

/-- A chunk is refused exactly when its slots or slot inputs do not add up or a row alone is
over the limit; otherwise its batches are its rows, in order, cut into groups within the
limit, none of them empty unless the chunk is. -/
theorem cost_record_batches (serde : Serializer SlotInput) (chunk : CostLogChunk Num SlotInput)
    (limit : Nat) (hgroups : (chunk.entries.map (·.groupLen)).sum ≤ chunk.groupLogs.length) :
    ((∃ message, costToRecordBatchesWithin serde chunk limit = .error message) ↔
      ¬Batchable serde chunk limit) ∧
    ∀ batches, costToRecordBatchesWithin serde chunk limit = .ok batches →
      ∃ cuts : List (List (CostRow Num SlotInput)),
        batches = cuts.map (ofRows serde chunk.poolTag) ∧ cuts.flatten = rowsOf chunk ∧
        (∀ cut ∈ cuts, (cut.map (jsonBytes serde)).sum ≤ limit) ∧
        ∀ cut ∈ cuts, cut = [] → chunk.entries = [] := by
  -- the cut of the rows seen so far is the invariant of the loop
  obtain ⟨hall, hend⟩ := @cut_run _ _ serde chunk limit hgroups chunk.entries [] rfl {}
    (cut_start limit)
  have hok : ∀ batches, costToRecordBatchesWithin serde chunk limit = .ok batches →
      Batchable serde chunk limit ∧
      ∃ cuts : List (List (CostRow Num SlotInput)),
        batches = cuts.map (ofRows serde chunk.poolTag) ∧ cuts.flatten = rowsOf chunk ∧
        (∀ cut ∈ cuts, (cut.map (jsonBytes serde)).sum ≤ limit) ∧
        ∀ cut ∈ cuts, cut = [] → chunk.entries = [] := by
    intro batches hbatches
    simp only [costToRecordBatchesWithin, bind_eq_ok_iff] at hbatches
    obtain ⟨last, hrun, _, hinputs, _, hslots, hbatches⟩ := hbatches
    obtain ⟨hcut, hfits⟩ := hend last hrun
    have hinputs := ensure_eq_ok_iff.mp hinputs
    have hslots := ensure_eq_ok_iff.mp hslots
    rw [hcut.inputs, before_length] at hinputs
    rw [hcut.slots, before_length] at hslots
    obtain ⟨hopen, cuts, hfinish, hcuts, hrows⟩ := hcut.last hgroups
    rw [if_pos hopen, hfinish] at hbatches
    refine ⟨⟨hslots, hinputs, fun row hrow => ?_⟩, cuts, ?_, hrows⟩
    · obtain ⟨i, entry, hentry, rfl⟩ := mem_rowsOf.mp hrow
      exact (hfits i entry (Nat.zero_le i) hentry).bytes
    · exact (Except.ok.inj hbatches).symm.trans hcuts
  refine ⟨?_, fun batches hbatches => (hok batches hbatches).2⟩
  constructor
  · rintro ⟨message, herror⟩ hbatchable
    obtain ⟨last, hrun⟩ := hall fun row entry _ hentry => hbatchable.fits hentry
    obtain ⟨hcut, -⟩ := hend last hrun
    have hinputs : last.slotInputCursor = chunk.slotInputs.length := by
      rw [hcut.inputs, before_length, hbatchable.inputs]
    have hslots : SlotsUsed chunk last.slotCursor := by
      rw [hcut.slots, before_length]
      exact hbatchable.slots
    obtain ⟨hopen, cuts, hfinish, -⟩ := hcut.last hgroups
    have hsuccess : costToRecordBatchesWithin serde chunk limit =
        .ok (last.batches ++ [ofRows serde chunk.poolTag
          (rowsBetween chunk last.batchFirstRow chunk.entries.length)]) := by
      rw [costToRecordBatchesWithin, show chunk.entries.zipIdx.foldlM _ _ = .ok last from hrun]
      simp only [ensure_eq_ok_iff.mpr hinputs, ensure_eq_ok_iff.mpr hslots, bind, Except.bind]
      rw [if_pos hopen, hfinish]
      rfl
    rw [hsuccess] at herror
    cases herror
  · intro hrefused
    cases hresult : costToRecordBatchesWithin serde chunk limit with
    | error message => exact ⟨message, rfl⟩
    | ok batches => exact absurd (hok batches hresult).1 hrefused

/-- A writer that fails on every slot input. -/
def noTexts : Serializer Nat := ⟨fun _ => none, fun _ _ => ""⟩

/-- Two rows of one slot each. -/
def twoRows : CostLogChunk Nat Nat where
  poolTag := "main"
  entries := [⟨0, 0, 0, 0, 0, 0, "iter", -1, 1, 1, 1⟩, ⟨0, 1, 0, 0, 0, 0, "iter", -1, 0, 1, 1⟩]
  groupLogs := [⟨4, 4, 0, 0, [(0, 4)], 0, none, none⟩]
  slotTimes := [5, 6]
  slotCovs := [0, 1]
  slotFlops := [0, 0]
  slotBytes := [0, 0]
  slotBackends := [0, 255]
  slotInputs := [7, 8]

/-- Their JSON fits a batch only one by one, so each has a batch of its own. -/
theorem cost_record_batches_two : ∃ cuts : List (List (CostRow Nat Nat)),
      costToRecordBatchesWithin noTexts twoRows 4 = .ok (cuts.map (ofRows noTexts "main")) ∧
        cuts.flatten = rowsOf twoRows ∧
        (∀ cut ∈ cuts, (cut.map (jsonBytes noTexts)).sum ≤ 4) ∧
        (cuts.map (ofRows noTexts "main")).map (·.iterId) = [[0], [1]] := by
  obtain ⟨batches, hbatches, hcheck⟩ : ∃ batches,
      costToRecordBatchesWithin noTexts twoRows 4 = .ok batches ∧
        decide (batches.map (·.iterId) = [[0], [1]]) = true :=
    exists_ok_of_check (by decide +kernel)
  obtain ⟨cuts, hcuts, hrows, hlimit, -⟩ :=
    (cost_record_batches noTexts twoRows 4 (by decide)).2 batches hbatches
  refine ⟨cuts, hcuts ▸ hbatches, hrows, hlimit, ?_⟩
  rw [show cuts.map (ofRows noTexts "main") = batches from hcuts.symm]
  exact of_decide_eq_true hcheck

end CostBatches

end ServingSim
