import ServingSim.Common.Ensure

/-
  What a worker's KV occupancy leaves in its log (`log/kv_sampler.rs`).

  A worker submits each group's occupancy every iteration; a row is written for the first
  submit, then for every `stride` of them, and at the flush for what is left. A row keeps
  its window's peak, the composition at that peak and the state at the window's end, so
  that thinning the series hides neither the peak nor the endpoint. All of it lives in one
  accumulator a group, whose fields are reset at different moments.

  What is proved:
    1. `kv_sampling` — after the flush each group's rows are the windows of its submits;
       the largest row is its largest submit, and the last row is at its last submit.

  The writer is alive, so a chunk that is sent is written. Times are rational milliseconds.
  The debug assertion that the prefix is part of the active KV is left out.
-/

namespace ServingSim

/-- The occupancy figures of one iteration, in tokens. -/
structure KvSubmit where
  activeKv : Nat
  retainedPrefixKv : Nat
  projectedPeak : Nat
  promisedKv : Nat
  deriving DecidableEq, Repr

structure KvSnapshotEntry where
  workerId : Nat
  groupId : Nat
  timeMs : ℚ
  activeKv : Nat
  retainedPrefixKv : Nat
  projectedPeak : Nat
  promisedKv : Nat
  deriving DecidableEq

/-- Per-group sampling accumulator. -/
structure Slot where
  windowCount : Nat := 0
  peakActive : Nat := 0
  retainedPrefixAtPeakActive : Nat := 0
  emittedAny : Bool := false
  /-- Window data without a row is buffered. -/
  pending : Bool := false
  lastTimeMs : ℚ := 0
  lastProjectedPeak : Nat := 0
  lastPromised : Nat := 0

structure KvSampler where
  /-- The chunks handed to the writer. -/
  sent : List (List KvSnapshotEntry)
  buf : List KvSnapshotEntry
  slots : List Slot
  stride : Nat
  workerId : Nat
  closed : Bool

/-- One call of the worker. -/
structure Submitted where
  groupId : Nat
  occupancy : KvSubmit
  now : ℚ

namespace KvSampler

def streamFlushRows : Nat := 8192

def opened (workerId numGroups stride : Nat) : KvSampler where
  sent := []
  buf := []
  slots := List.replicate (max numGroups 1) {}
  stride := max stride 1
  workerId := workerId
  closed := false

/-- The accumulator with one more submit. The prefix stays paired with the active peak; on
equal peaks the later composition is kept. -/
def note (slot : Slot) (occupancy : KvSubmit) (now : ℚ) : Slot :=
  let peaks := slot.windowCount = 0 ∨ occupancy.activeKv ≥ slot.peakActive
  { slot with
    peakActive := if peaks then occupancy.activeKv else slot.peakActive
    retainedPrefixAtPeakActive :=
      if peaks then occupancy.retainedPrefixKv else slot.retainedPrefixAtPeakActive
    lastTimeMs := now
    lastProjectedPeak := occupancy.projectedPeak
    lastPromised := occupancy.promisedKv
    windowCount := slot.windowCount + 1 }

/-- The first submit is the baseline; afterwards a full window. -/
def emits (slot : Slot) (stride : Nat) : Bool := !slot.emittedAny || slot.windowCount ≥ stride

def restart (slot : Slot) : Slot :=
  { slot with
    emittedAny := true
    windowCount := 0
    peakActive := 0
    retainedPrefixAtPeakActive := 0
    pending := false }

def row (workerId groupId : Nat) (slot : Slot) : KvSnapshotEntry where
  workerId := workerId
  groupId := groupId
  timeMs := slot.lastTimeMs
  activeKv := slot.peakActive
  retainedPrefixKv := slot.retainedPrefixAtPeakActive
  projectedPeak := slot.lastProjectedPeak
  promisedKv := slot.lastPromised

@[simp] theorem row_groupId (workerId groupId : Nat) (slot : Slot) :
    (row workerId groupId slot).groupId = groupId :=
  rfl

def send (sampler : KvSampler) : KvSampler :=
  if sampler.buf = [] then sampler
  else { sampler with sent := sampler.sent ++ [sampler.buf], buf := [] }

/-- Buffer one row; a full buffer is sent. -/
def pushRow (sampler : KvSampler) (entry : KvSnapshotEntry) : KvSampler :=
  let buffered := { sampler with buf := sampler.buf ++ [entry] }
  if buffered.buf.length ≥ streamFlushRows then buffered.send else buffered

def submit (sampler : KvSampler) (call : Submitted) : Except String KvSampler :=
  if sampler.closed then .ok sampler
  else do
    let slot ← index sampler.slots call.groupId
    let noted := note slot call.occupancy call.now
    if emits noted sampler.stride then
      return pushRow { sampler with slots := sampler.slots.set call.groupId (restart noted) }
        (row sampler.workerId call.groupId noted)
    else
      return { sampler with
        slots := sampler.slots.set call.groupId { noted with pending := true } }

/-- Every group whose last window has no row yet owes one. -/
def tails (workerId : Nat) (slots : List Slot) : List KvSnapshotEntry :=
  (slots.zipIdx.filter fun slot => slot.1.pending).map fun slot => row workerId slot.2 slot.1

def flushAll (sampler : KvSampler) : KvSampler :=
  if sampler.closed then sampler
  else
    { sampler with
      closed := true
      buf := sampler.buf ++ tails sampler.workerId sampler.slots }.send

/-- The rows that a run of submits leaves in the log, flushed at its end. -/
def recorded (sampler : KvSampler) (calls : List Submitted) :
    Except String (List KvSnapshotEntry) := do
  let last ← calls.foldlM submit sampler
  return last.flushAll.sent.flatten

/-! ## Windows -/

/-- A row of a window: the peak with its latest composition, and the window's end. -/
structure WindowRow (workerId groupId : Nat) (window : List Submitted)
    (entry : KvSnapshotEntry) : Prop where
  worker : entry.workerId = workerId
  group : entry.groupId = groupId
  peak : ∃ before top after, window = before ++ top :: after ∧
    entry.activeKv = top.occupancy.activeKv ∧
    entry.retainedPrefixKv = top.occupancy.retainedPrefixKv ∧
    (∀ call ∈ before, call.occupancy.activeKv ≤ top.occupancy.activeKv) ∧
    ∀ call ∈ after, call.occupancy.activeKv < top.occupancy.activeKv
  atEnd : ∃ final, window.getLast? = some final ∧ entry.timeMs = final.now ∧
    entry.projectedPeak = final.occupancy.projectedPeak ∧
    entry.promisedKv = final.occupancy.promisedKv

/-- The windows of a group's submits: the first alone, then `stride` each, then a rest. -/
structure Windows (stride : Nat) (calls : List Submitted) (windows : List (List Submitted)) :
    Prop where
  flatten : windows.flatten = calls
  nonempty : ∀ window ∈ windows, window ≠ []
  first : ∀ window ∈ windows.head?, window.length = 1
  full : ∀ window ∈ windows.tail.dropLast, window.length = stride
  rest : ∀ window ∈ windows.tail.getLast?, window.length ≤ stride

theorem WindowRow.peaks {workerId groupId : Nat} {window : List Submitted}
    {entry : KvSnapshotEntry} (h : WindowRow workerId groupId window entry) :
    (∃ call ∈ window, entry.activeKv = call.occupancy.activeKv) ∧
      ∀ call ∈ window, call.occupancy.activeKv ≤ entry.activeKv := by
  obtain ⟨before, top, after, rfl, hactive, -, hbefore, hafter⟩ := h.peak
  refine ⟨⟨top, by simp, hactive⟩, fun call hcall => ?_⟩
  rw [hactive]
  rcases List.mem_append.mp hcall with hcall | hcall
  · exact hbefore call hcall
  · rcases List.mem_cons.mp hcall with rfl | hcall
    · exact le_refl _
    · exact (hafter call hcall).le

/-! ## One group -/

/-- A group's accumulator: its closed windows with their rows, and the open one. -/
structure Accumulated (stride workerId groupId : Nat) (windows : List (List Submitted))
    (current : List Submitted) (entries : List KvSnapshotEntry) (slot : Slot) : Prop where
  rows : List.Forall₂ (WindowRow workerId groupId) windows entries
  first : ∀ window ∈ windows.head?, window.length = 1
  full : ∀ window ∈ windows.tail, window.length = stride
  count : slot.windowCount = current.length
  short : current.length < stride
  emitted : slot.emittedAny = !windows.isEmpty
  pending : slot.pending = !current.isEmpty
  started : windows = [] → current = []
  sampled : current ≠ [] → WindowRow workerId groupId current (row workerId groupId slot)

section

variable {stride workerId groupId : Nat} {windows : List (List Submitted)}
  {current : List Submitted} {entries : List KvSnapshotEntry} {slot : Slot}
  (h : Accumulated stride workerId groupId windows current entries slot) (call : Submitted)

include stride workerId groupId windows current entries slot h call

theorem Accumulated.note :
    WindowRow workerId groupId (current ++ [call])
      (row workerId groupId (KvSampler.note slot call.occupancy call.now)) := by
  refine ⟨rfl, rfl, ?_, ⟨call, List.getLast?_concat, rfl, rfl, rfl⟩⟩
  by_cases hcurrent : current = []
  · subst hcurrent
    have hcount : slot.windowCount = 0 := h.count
    refine ⟨[], call, [], rfl, ?_, ?_, ?_, ?_⟩
    · simp [row, KvSampler.note, hcount]
    · simp [row, KvSampler.note, hcount]
    · exact fun _ hmem => absurd hmem List.not_mem_nil
    · exact fun _ hmem => absurd hmem List.not_mem_nil
  · have hcount : slot.windowCount ≠ 0 := by
      rw [h.count]
      exact fun hzero => hcurrent (List.length_eq_zero_iff.mp hzero)
    have hsampled := h.sampled hcurrent
    by_cases hpeak : call.occupancy.activeKv ≥ slot.peakActive
    · refine ⟨current, call, [], rfl, ?_, ?_, fun other hother => ?_, ?_⟩
      · simp [row, KvSampler.note, hpeak]
      · simp [row, KvSampler.note, hpeak]
      · exact (hsampled.peaks.2 other hother).trans hpeak
      · exact fun _ hmem => absurd hmem List.not_mem_nil
    · -- an earlier peak stands; the new submit is one of those behind it
      obtain ⟨before, top, after, hwindow, hactive, hprefix, hbefore, hafter⟩ := hsampled.peak
      refine ⟨before, top, after ++ [call], by rw [hwindow]; simp, ?_, ?_, hbefore,
        fun other hother => ?_⟩
      · simp [row, KvSampler.note, hpeak, hcount, ← hactive]
      · simp [row, KvSampler.note, hpeak, hcount, ← hprefix]
      · rcases List.mem_append.mp hother with hother | hother
        · exact hafter other hother
        · rw [List.mem_singleton.mp hother, ← hactive]
          exact not_le.mp hpeak

theorem Accumulated.submit :
    if emits (KvSampler.note slot call.occupancy call.now) stride then
      Accumulated stride workerId groupId (windows ++ [current ++ [call]]) []
        (entries ++ [row workerId groupId (KvSampler.note slot call.occupancy call.now)])
        (restart (KvSampler.note slot call.occupancy call.now))
    else
      Accumulated stride workerId groupId windows (current ++ [call]) entries
        { KvSampler.note slot call.occupancy call.now with pending := true } := by
  have hnoted := h.note call
  have hcount : (KvSampler.note slot call.occupancy call.now).windowCount = current.length + 1 := by
    rw [← h.count]
    rfl
  have hemitted : (KvSampler.note slot call.occupancy call.now).emittedAny = !windows.isEmpty :=
    h.emitted
  have hemits : emits (KvSampler.note slot call.occupancy call.now) stride = true ↔
      windows = [] ∨ current.length + 1 ≥ stride := by
    simp [emits, hcount, hemitted]
  -- the call closes its window, the first one at once, or the window stays open
  split
  · next hclose =>
    refine ⟨List.rel_append h.rows (.cons hnoted .nil), ?_, ?_, rfl, ?_, ?_, rfl, ?_, ?_⟩
    · intro window hwindow
      cases hwindows : windows with
      | nil =>
        rw [hwindows, List.nil_append, h.started hwindows] at hwindow
        obtain rfl := Option.some.inj hwindow
        rfl
      | cons head rest =>
        rw [hwindows] at hwindow
        exact h.first window (hwindows ▸ hwindow)
    · intro window hwindow
      cases hwindows : windows with
      | nil =>
        rw [hwindows] at hwindow
        exact absurd hwindow List.not_mem_nil
      | cons head rest =>
        rw [hwindows, List.cons_append, List.tail_cons] at hwindow
        rcases List.mem_append.mp hwindow with hold | hnew
        · exact h.full window (hwindows ▸ hold)
        · have hlong := (hemits.mp hclose).resolve_left (by simp [hwindows])
          have hshort := h.short
          rw [List.mem_singleton.mp hnew, List.length_append, List.length_singleton]
          omega
    · exact (Nat.zero_le _).trans_lt h.short
    · simp [restart]
    · simp
    · exact fun hnil => absurd rfl hnil
  · next hkeep =>
    have hopen := mt hemits.mpr hkeep
    refine ⟨h.rows, h.first, h.full, ?_, ?_, hemitted, ?_, ?_, fun _ => hnoted⟩
    · rw [List.length_append, List.length_singleton]
      exact hcount
    · rw [List.length_append, List.length_singleton]
      exact not_le.mp fun hge => hopen (.inr hge)
    · simp
    · exact fun hnil => absurd (.inl hnil) hopen

end

/-! ## All groups -/

def ownCalls (groupId : Nat) (calls : List Submitted) : List Submitted :=
  calls.filter fun call => call.groupId = groupId

def ownRows (groupId : Nat) (entries : List KvSnapshotEntry) : List KvSnapshotEntry :=
  entries.filter fun entry => entry.groupId = groupId

/-- The rows so far, written or buffered. -/
def rows (sampler : KvSampler) : List KvSnapshotEntry := sampler.sent.flatten ++ sampler.buf

/-- An open sampler with `groups` groups that has seen `calls`. -/
structure Sampling (stride workerId groups : Nat) (calls : List Submitted)
    (sampler : KvSampler) : Prop where
  alive : sampler.closed = false
  sameStride : sampler.stride = stride
  sameWorker : sampler.workerId = workerId
  length : sampler.slots.length = groups
  accumulated : ∀ groupId slot, sampler.slots[groupId]? = some slot →
    ∃ windows current, windows.flatten ++ current = ownCalls groupId calls ∧
      Accumulated stride workerId groupId windows current (ownRows groupId sampler.rows) slot
  known : ∀ entry ∈ sampler.rows, entry.groupId < groups

theorem rows_send (sampler : KvSampler) : sampler.send.rows = sampler.rows := by
  unfold send
  split
  · rfl
  · simp [rows]

theorem rows_pushRow (sampler : KvSampler) (entry : KvSnapshotEntry) :
    (sampler.pushRow entry).rows = sampler.rows ++ [entry] := by
  unfold pushRow
  simp only
  split
  · rw [rows_send, rows, rows, List.append_assoc]
  · rw [rows, rows, List.append_assoc]

theorem pushRow_fields (sampler : KvSampler) (entry : KvSnapshotEntry) :
    (sampler.pushRow entry).closed = sampler.closed ∧
      (sampler.pushRow entry).stride = sampler.stride ∧
      (sampler.pushRow entry).workerId = sampler.workerId ∧
      (sampler.pushRow entry).slots = sampler.slots := by
  unfold pushRow send
  simp only
  split
  · split <;> exact ⟨rfl, rfl, rfl, rfl⟩
  · exact ⟨rfl, rfl, rfl, rfl⟩

theorem ownCalls_concat (groupId : Nat) (calls : List Submitted) (call : Submitted) :
    ownCalls groupId (calls ++ [call]) =
      if call.groupId = groupId then ownCalls groupId calls ++ [call]
      else ownCalls groupId calls := by
  rw [ownCalls, List.filter_append, ownCalls]
  split <;> simp [*]

theorem ownRows_concat (groupId : Nat) (entries : List KvSnapshotEntry)
    (entry : KvSnapshotEntry) :
    ownRows groupId (entries ++ [entry]) =
      if entry.groupId = groupId then ownRows groupId entries ++ [entry]
      else ownRows groupId entries := by
  rw [ownRows, List.filter_append, ownRows]
  split <;> simp [*]

variable {calls : List Submitted} {sampler : KvSampler}

theorem Sampling.submit {stride workerId groups : Nat}
    (h : Sampling stride workerId groups calls sampler)
    {call : Submitted} (hcall : call.groupId < groups) :
    ∃ sampler', sampler.submit call = .ok sampler' ∧
      Sampling stride workerId groups (calls ++ [call]) sampler' := by
  obtain ⟨halive, rfl, rfl, hlength, hgroups, hknown⟩ := h
  have hlt : call.groupId < sampler.slots.length := hlength ▸ hcall
  have hindex : index sampler.slots call.groupId = .ok sampler.slots[call.groupId] :=
    index_eq_ok_iff.mpr (List.getElem?_eq_getElem hlt)
  obtain ⟨windows, current, hflatten, haccumulated⟩ :=
    hgroups call.groupId _ (List.getElem?_eq_getElem hlt)
  have hstep := haccumulated.submit call
  have hown : ownCalls call.groupId (calls ++ [call]) = windows.flatten ++ (current ++ [call]) := by
    rw [ownCalls_concat, if_pos rfl, ← hflatten, List.append_assoc]
  -- what a group keeps when only the call's slot changes
  have hothers : ∀ (slot : Slot) (entries : List KvSnapshotEntry),
      (∀ groupId, groupId ≠ call.groupId → ownRows groupId entries = ownRows groupId sampler.rows) →
      (∃ windows current, windows.flatten ++ current = ownCalls call.groupId (calls ++ [call]) ∧
        Accumulated sampler.stride sampler.workerId call.groupId windows current
          (ownRows call.groupId entries) slot) →
      ∀ groupId slot', (sampler.slots.set call.groupId slot)[groupId]? = some slot' →
        ∃ windows current, windows.flatten ++ current = ownCalls groupId (calls ++ [call]) ∧
          Accumulated sampler.stride sampler.workerId groupId windows current
            (ownRows groupId entries) slot' := by
    intro slot entries hrows hself groupId slot' hslot'
    by_cases hgroup : groupId = call.groupId
    · subst hgroup
      rw [List.getElem?_set_self hlt] at hslot'
      rw [← Option.some.inj hslot']
      exact hself
    · rw [List.getElem?_set_ne (Ne.symm hgroup)] at hslot'
      rw [ownCalls_concat, if_neg (Ne.symm hgroup), hrows groupId hgroup]
      exact hgroups groupId slot' hslot'
  rw [KvSampler.submit, if_neg (by rw [halive]; exact Bool.false_ne_true), hindex]
  simp only [bind, Except.bind]
  split
  · next hemits =>
    rw [if_pos hemits] at hstep
    refine ⟨_, rfl, ?_⟩
    obtain ⟨hclosed, hstride, hworker, hslots⟩ := pushRow_fields
      { sampler with
        slots := sampler.slots.set call.groupId
          (restart (note sampler.slots[call.groupId] call.occupancy call.now)) }
      (row sampler.workerId call.groupId (note sampler.slots[call.groupId] call.occupancy call.now))
    refine ⟨hclosed.trans halive, hstride, hworker, ?_, ?_, ?_⟩
    · rw [hslots, List.length_set]
      exact hlength
    · rw [hslots, rows_pushRow]
      refine hothers _ _ (fun groupId hgroup => ?_)
        ⟨windows ++ [current ++ [call]], [], ?_, ?_⟩
      · rw [ownRows_concat, row_groupId, if_neg (Ne.symm hgroup)]
        rfl
      · rw [hown, List.append_nil, List.flatten_append, List.flatten_singleton]
      · rw [ownRows_concat, row_groupId, if_pos rfl]
        exact hstep
    · rw [rows_pushRow]
      intro entry hentry
      rcases List.mem_append.mp hentry with hold | hnew
      · exact hknown entry hold
      · rw [List.mem_singleton.mp hnew]
        exact hcall
  · next hemits =>
    rw [if_neg hemits] at hstep
    refine ⟨_, rfl, halive, rfl, rfl, ?_, ?_, hknown⟩
    · show (sampler.slots.set _ _).length = groups
      rw [List.length_set]
      exact hlength
    · exact hothers _ _ (fun _ _ => rfl) ⟨windows, current ++ [call], hown.symm, hstep⟩

theorem sampling_opened (workerId numGroups stride : Nat) :
    Sampling (max stride 1) workerId (max numGroups 1) [] (opened workerId numGroups stride) := by
  refine ⟨rfl, rfl, rfl, List.length_replicate, fun groupId slot hslot => ?_,
    fun entry hentry => absurd hentry List.not_mem_nil⟩
  obtain rfl : slot = {} := List.eq_of_mem_replicate (List.mem_of_getElem? hslot)
  exact ⟨[], [], rfl, .nil, fun _ hw => absurd hw (Option.not_mem_none _),
    fun _ hw => absurd hw List.not_mem_nil, rfl,
    Nat.lt_of_lt_of_le Nat.one_pos (le_max_right _ _), rfl, rfl, fun _ => rfl,
    fun hnil => absurd rfl hnil⟩

theorem sampling_run {stride workerId groups : Nat} (calls : List Submitted)
    (hcalls : ∀ call ∈ calls, call.groupId < groups) {seen : List Submitted}
    (h : Sampling stride workerId groups seen sampler) :
    ∃ sampler', calls.foldlM KvSampler.submit sampler = .ok sampler' ∧
      Sampling stride workerId groups (seen ++ calls) sampler' := by
  induction calls generalizing seen sampler with
  | nil => exact ⟨sampler, rfl, by rwa [List.append_nil]⟩
  | cons call calls ih =>
    obtain ⟨hcall, hrest⟩ := List.forall_mem_cons.mp hcalls
    obtain ⟨next, hsubmit, hnext⟩ := h.submit hcall
    obtain ⟨last, hlast, hsampling⟩ := ih hrest hnext
    refine ⟨last, ?_, ?_⟩
    · rw [List.foldlM_cons, hsubmit]
      exact hlast
    · rwa [List.append_assoc] at hsampling

/-! ## The flush -/

/-- The tail that a group owes. -/
def owed (workerId groupId : Nat) : Option Slot → List KvSnapshotEntry
  | some slot => if slot.pending then [row workerId groupId slot] else []
  | none => []

theorem ownRows_tails (workerId groupId : Nat) (slots : List Slot) :
    ownRows groupId (tails workerId slots) = owed workerId groupId slots[groupId]? := by
  have hfrom : ∀ (slots : List Slot) (first : Nat),
      ownRows groupId (((slots.zipIdx first).filter fun slot => slot.1.pending).map
        fun slot => row workerId slot.2 slot.1) =
      owed workerId groupId (if first ≤ groupId then slots[groupId - first]? else none) := by
    intro slots
    induction slots with
    | nil =>
      intro first
      split <;> rfl
    | cons slot slots ih =>
      intro first
      have hcons : ownRows groupId ((((slot :: slots).zipIdx first).filter fun slot =>
          slot.1.pending).map fun slot => row workerId slot.2 slot.1) =
          (if first = groupId then owed workerId groupId (some slot) else []) ++
            owed workerId groupId
              (if first + 1 ≤ groupId then slots[groupId - (first + 1)]? else none) := by
        rw [← ih, List.zipIdx_cons, List.filter_cons, ownRows, ownRows, owed]
        cases hpending : slot.pending with
        | true =>
          rw [if_pos rfl, List.map_cons, List.filter_cons]
          by_cases hgroup : first = groupId
          · subst hgroup
            simp
          · simp [hgroup]
        | false =>
          rw [if_neg Bool.false_ne_true]
          simp
      rw [hcons]
      rcases lt_trichotomy first groupId with hlt | rfl | hgt
      · have hget : (slot :: slots)[groupId - first]? = slots[groupId - (first + 1)]? := by
          rw [show groupId - first = groupId - (first + 1) + 1 by omega, List.getElem?_cons_succ]
        rw [if_neg hlt.ne, if_pos (Nat.succ_le_of_lt hlt), if_pos hlt.le, hget, List.nil_append]
      · rw [if_pos rfl, if_neg (Nat.not_succ_le_self first), if_pos (le_refl first), Nat.sub_self,
          List.getElem?_cons_zero]
        exact List.append_nil _
      · rw [if_neg hgt.ne', if_neg (by omega), if_neg (not_le.mpr hgt), List.nil_append]
  have h := hfrom slots 0
  rwa [if_pos (Nat.zero_le _), Nat.sub_zero] at h

theorem flatten_flushAll (h : sampler.closed = false) :
    sampler.flushAll.sent.flatten = sampler.rows ++ tails sampler.workerId sampler.slots := by
  rw [flushAll, if_neg (by simp [h]), send]
  split
  · next hnil =>
    obtain ⟨hbuf, htails⟩ := List.append_eq_nil_iff.mp hnil
    rw [rows, hbuf, htails]
    simp
  · simp [rows]

theorem Accumulated.flushed {stride workerId groupId : Nat} {windows : List (List Submitted)}
    {current calls : List Submitted} {entries : List KvSnapshotEntry} {slot : Slot}
    (h : Accumulated stride workerId groupId windows current entries slot)
    (hcalls : windows.flatten ++ current = calls) :
    ∃ windows', Windows stride calls windows' ∧ List.Forall₂ (WindowRow workerId groupId) windows'
        (entries ++ owed workerId groupId (some slot)) := by
  have hstride := (Nat.zero_le current.length).trans_lt h.short
  have hclosed : ∀ window ∈ windows, window ≠ [] := by
    intro window hwindow hnil
    cases hwindows : windows with
    | nil =>
      rw [hwindows] at hwindow
      exact List.not_mem_nil hwindow
    | cons head rest =>
      rw [hwindows] at hwindow
      rcases List.mem_cons.mp hwindow with rfl | hwindow
      · have := h.first window (by rw [hwindows]; rfl)
        rw [hnil] at this
        cases this
      · have := h.full window (by rw [hwindows]; exact hwindow)
        rw [hnil, List.length_nil] at this
        omega
  by_cases hcurrent : current = []
  · have hpending : slot.pending = false := by rw [h.pending, hcurrent]; rfl
    refine ⟨windows, ⟨?_, hclosed, h.first, ?_, ?_⟩, ?_⟩
    · rw [← hcalls, hcurrent, List.append_nil]
    · exact fun window hwindow => h.full window (List.mem_of_mem_dropLast hwindow)
    · exact fun window hwindow => (h.full window (List.mem_of_getLast? hwindow)).le
    · rw [owed, hpending, if_neg Bool.false_ne_true, List.append_nil]
      exact h.rows
  · have hpending : slot.pending = true := by
      rw [h.pending, Bool.not_eq_true', List.isEmpty_eq_false_iff]
      exact hcurrent
    obtain ⟨head, rest, hwindows⟩ := List.exists_cons_of_ne_nil fun hnil =>
      hcurrent (h.started hnil)
    refine ⟨windows ++ [current], ⟨?_, ?_, ?_, ?_, ?_⟩, ?_⟩
    · rw [List.flatten_append, List.flatten_singleton, hcalls]
    · intro window hwindow
      rcases List.mem_append.mp hwindow with hold | hnew
      · exact hclosed window hold
      · exact List.mem_singleton.mp hnew ▸ hcurrent
    · intro window hwindow
      refine h.first window ?_
      rw [hwindows] at hwindow ⊢
      exact hwindow
    · intro window hwindow
      rw [hwindows, List.cons_append, List.tail_cons, List.dropLast_concat] at hwindow
      exact h.full window (by rw [hwindows]; exact hwindow)
    · intro window hwindow
      rw [hwindows, List.cons_append, List.tail_cons, List.getLast?_concat] at hwindow
      rw [← Option.some.inj hwindow]
      exact h.short.le
    · rw [owed, hpending, if_pos rfl]
      exact List.rel_append h.rows (.cons (h.sampled hcurrent) .nil)

/-! ## Peaks and endpoints -/

theorem max_eq_of_dominated {xs ys : List Nat} (hxs : ∀ x ∈ xs, ∃ y ∈ ys, x ≤ y)
    (hys : ∀ y ∈ ys, ∃ x ∈ xs, y ≤ x) : xs.max? = ys.max? := by
  cases hmax : xs.max? with
  | none =>
    rw [List.max?_eq_none_iff] at hmax
    cases ys with
    | nil => rfl
    | cons y ys =>
      obtain ⟨x, hx, -⟩ := hys y List.mem_cons_self
      rw [hmax] at hx
      exact absurd hx List.not_mem_nil
  | some x =>
    obtain ⟨hx, hle⟩ := List.max?_eq_some_iff.mp hmax
    obtain ⟨y, hy, hxy⟩ := hxs x hx
    symm
    rw [List.max?_eq_some_iff]
    have hbound : ∀ y ∈ ys, y ≤ x := fun y hy => by
      obtain ⟨x', hx', hyx⟩ := hys y hy
      exact hyx.trans (hle x' hx')
    exact ⟨le_antisymm (hbound y hy) hxy ▸ hy, hbound⟩

section related

variable {α β : Type} {R : α → β → Prop} {xs : List α} {ys : List β}

theorem exists_right (h : List.Forall₂ R xs ys) {x : α} (hx : x ∈ xs) : ∃ y ∈ ys, R x y := by
  induction h with
  | nil => exact absurd hx List.not_mem_nil
  | cons hxy hrest ih =>
    rcases List.mem_cons.mp hx with rfl | hx
    · exact ⟨_, List.mem_cons_self, hxy⟩
    · obtain ⟨y, hy, hR⟩ := ih hx
      exact ⟨y, List.mem_cons_of_mem _ hy, hR⟩

theorem exists_left (h : List.Forall₂ R xs ys) {y : β} (hy : y ∈ ys) : ∃ x ∈ xs, R x y :=
  exists_right h.flip hy

end related

section

variable {stride workerId groupId : Nat} {windows : List (List Submitted)}
  {entries : List KvSnapshotEntry} (h : Windows stride calls windows)
  (hrows : List.Forall₂ (WindowRow workerId groupId) windows entries)

include stride workerId groupId windows entries h hrows

theorem Windows.peak :
    (entries.map (·.activeKv)).max? = (calls.map (·.occupancy.activeKv)).max? := by
  refine max_eq_of_dominated (fun active hactive => ?_) fun active hactive => ?_
  · obtain ⟨entry, hentry, rfl⟩ := List.mem_map.mp hactive
    obtain ⟨window, hwindow, hrow⟩ := exists_left hrows hentry
    obtain ⟨call, hcall, heq⟩ := hrow.peaks.1
    refine ⟨_, List.mem_map_of_mem ?_, heq.le⟩
    rw [← h.flatten]
    exact List.mem_flatten_of_mem hwindow hcall
  · obtain ⟨call, hcall, rfl⟩ := List.mem_map.mp hactive
    rw [← h.flatten] at hcall
    obtain ⟨window, hwindow, hmem⟩ := List.mem_flatten.mp hcall
    obtain ⟨entry, hentry, hrow⟩ := exists_right hrows hwindow
    exact ⟨_, List.mem_map_of_mem hentry, hrow.peaks.2 call hmem⟩

theorem Windows.endpoint :
    entries.getLast?.map (·.timeMs) = calls.getLast?.map (·.now) := by
  rw [← h.flatten]
  have hnonempty := h.nonempty
  clear h
  induction hrows with
  | nil => rfl
  | @cons window entry windows entries hrow hrest ih =>
    obtain ⟨-, hlater⟩ := List.forall_mem_cons.mp hnonempty
    rw [List.flatten_cons, List.getLast?_append]
    cases hrest with
    | nil =>
      obtain ⟨final, hfinal, htime, -, -⟩ := hrow.atEnd
      simp [hfinal, htime]
    | @cons next nextEntry windows entries hnext hrest =>
      have hflatten : (next :: windows).flatten ≠ [] := by
        rw [List.flatten_cons]
        exact List.append_ne_nil_of_left_ne_nil (hlater next List.mem_cons_self) _
      obtain ⟨final, hfinal⟩ := Option.isSome_iff_exists.mp (List.getLast?_isSome.mpr hflatten)
      rw [hfinal, Option.some_or, List.getLast?_cons_cons, ih hlater, hfinal]

end

/-- Each group's rows are the windows of its submits, and keep its peak and its endpoint. -/
theorem kv_sampling (workerId numGroups stride : Nat) (calls : List Submitted)
    (hcalls : ∀ call ∈ calls, call.groupId < max numGroups 1) :
    ∃ entries, (opened workerId numGroups stride).recorded calls = .ok entries ∧ ∀ groupId,
        (∃ windows, Windows (max stride 1) (ownCalls groupId calls) windows ∧
          List.Forall₂ (WindowRow workerId groupId) windows (ownRows groupId entries)) ∧
        ((ownRows groupId entries).map (·.activeKv)).max? =
          ((ownCalls groupId calls).map (·.occupancy.activeKv)).max? ∧
        (ownRows groupId entries).getLast?.map (·.timeMs) =
          (ownCalls groupId calls).getLast?.map (·.now) := by
  obtain ⟨sampler, hrun, hsampling⟩ :=
    sampling_run calls hcalls (sampling_opened workerId numGroups stride)
  rw [List.nil_append] at hsampling
  refine ⟨sampler.flushAll.sent.flatten, ?_, fun groupId => ?_⟩
  · rw [recorded, hrun]
    rfl
  · have hwindows : ∃ windows, Windows (max stride 1) (ownCalls groupId calls) windows ∧
        List.Forall₂ (WindowRow workerId groupId) windows
          (ownRows groupId sampler.flushAll.sent.flatten) := by
      have htails := ownRows_tails sampler.workerId groupId sampler.slots
      rw [hsampling.sameWorker] at htails
      rw [flatten_flushAll hsampling.alive, ownRows, List.filter_append, hsampling.sameWorker]
      simp only [ownRows] at htails
      rw [htails]
      cases hslot : sampler.slots[groupId]? with
      | some slot =>
        obtain ⟨windows, current, hflatten, haccumulated⟩ :=
          hsampling.accumulated groupId slot hslot
        exact haccumulated.flushed hflatten
      | none =>
        -- no such group: nothing is submitted for it and nothing written
        have hbound : max numGroups 1 ≤ groupId := by
          rw [← hsampling.length]
          exact List.getElem?_eq_none_iff.mp hslot
        have hcalls' : ownCalls groupId calls = [] :=
          List.filter_eq_nil_iff.mpr fun call hcall heq =>
            absurd (hcalls call hcall) (not_lt.mpr (of_decide_eq_true heq ▸ hbound))
        have hrows : sampler.rows.filter (fun entry => entry.groupId = groupId) = [] :=
          List.filter_eq_nil_iff.mpr fun entry hentry heq =>
            absurd (hsampling.known entry hentry) (not_lt.mpr (of_decide_eq_true heq ▸ hbound))
        rw [hcalls', hrows]
        refine ⟨[], ⟨rfl, ?_, ?_, ?_, ?_⟩, .nil⟩
        · exact fun _ hw => absurd hw List.not_mem_nil
        · exact fun _ hw => absurd hw (Option.not_mem_none _)
        · exact fun _ hw => absurd hw List.not_mem_nil
        · exact fun _ hw => absurd hw (Option.not_mem_none _)
    obtain ⟨windows, hw, hrows⟩ := hwindows
    exact ⟨⟨windows, hw, hrows⟩, hw.peak hrows, hw.endpoint hrows⟩

/-- Two groups that interleave, one of them with a rest at the flush. -/
theorem kv_sampling_interleaved :
    ∃ entries, (opened 0 2 3).recorded [⟨0, ⟨10, 1, 10, 0⟩, 0⟩, ⟨1, ⟨7, 3, 7, 0⟩, 0⟩,
        ⟨0, ⟨50, 7, 50, 0⟩, 1⟩, ⟨0, ⟨50, 11, 50, 0⟩, 2⟩] = .ok entries ∧
      ((ownRows 0 entries).map (·.activeKv)).max? = some 50 := by
  obtain ⟨entries, hrun, hgroups⟩ := kv_sampling 0 2 3 [⟨0, ⟨10, 1, 10, 0⟩, 0⟩,
    ⟨1, ⟨7, 3, 7, 0⟩, 0⟩, ⟨0, ⟨50, 7, 50, 0⟩, 1⟩, ⟨0, ⟨50, 11, 50, 0⟩, 2⟩] (by decide)
  exact ⟨entries, hrun, (hgroups 0).2.1⟩

end KvSampler

end ServingSim
