import ServingSim.Admission.Paths
import ServingSim.Analyzer.Workload

/-
  What an iteration submits to the model, and the row it leaves in the cost log
  (`execution::unified_iter_execution`, `worker::cost_buffers`).

  The shell forms a batch and starts it in the same tick: the input is built from the
  store as the batch left it, and one row is written from the input. The row holds a
  group for each partition, with the scheduled chunks and the decodes that run.

  Renamed (Rust ↔ Lean):
    `start_iteration` with `run_iter` ↔ the row `LoggedWorker.step` appends
  A batch of this lifecycle selects no decodes within a partition. The lengths per rank
  and the model's cost are read by no one here.
-/

namespace ServingSim

open KeyedTotal PendingOrderPolicy KvCacheStore

structure ArchGroupInput where
  batchTokens : Nat
  prefillTokens : Nat
  prefillChunkPairs : List (Nat × Nat)
  decodeTokens : Nat
  decodeKvLens : List Nat
  totalKvLen : Nat
  deriving DecidableEq, Repr

/-- What the log keeps of a group: its chunks, and of its decodes their number and KV. -/
def ArchGroupInput.groupLog (g : ArchGroupInput) : GroupInputLog where
  batchTokens := g.batchTokens
  prefillTokens := g.prefillTokens
  decodeRequestCount := g.decodeTokens
  decodeKvTotal := g.totalKvLen
  prefillChunkPairs := g.prefillChunkPairs

def fillGroupLog (groups : List ArchGroupInput) : List GroupInputLog :=
  groups.map ArchGroupInput.groupLog

variable {P : Type} {acc : KvAccounting} {n : Nat}

namespace ChunkedPrefillWorker

def buildGroup (w : ChunkedPrefillWorker P acc n) (p : Fin n) : Except String ArchGroupInput := do
  let prefillChunkPairs ← (w.store.partitions p).prefillAdmits.mapM fun request => do
    let resolvedPrefill ← w.resolvedPrefillContext request
    return resolvedPrefill.activeChunk
  let prefillTokens := (prefillChunkPairs.map Prod.snd).sum
  let decodeKvLens :=
    if w.batchPlan p then (w.store.partitions p).decodeMembers.map Prod.snd else []
  return {
    batchTokens := prefillTokens + decodeKvLens.length
    prefillTokens := prefillTokens
    prefillChunkPairs := prefillChunkPairs
    decodeTokens := decodeKvLens.length
    decodeKvLens := decodeKvLens
    totalKvLen := decodeKvLens.sum }

def buildInput (w : ChunkedPrefillWorker P acc n) : Except String (List ArchGroupInput) :=
  (List.finRange n).mapM w.buildGroup

end ChunkedPrefillWorker

/-- A worker and the rows of its cost log. -/
structure LoggedWorker (P : Type) (acc : KvAccounting) (n : Nat) where
  worker : ChunkedPrefillWorker P acc n
  rows : List (List GroupInputLog)

/-- A step of the shell; an iteration that starts leaves its row. -/
def LoggedWorker.step [PendingOrderPolicy P] (cfg : ChunkedPrefillConfig n)
    (s : LoggedWorker P acc n) (op : WorkerOp) : Except String (LoggedWorker P acc n) := do
  let worker ← op.step cfg s.worker
  if op = .formBatch ∧ worker.computing = true then
    let input ← worker.buildInput
    return ⟨worker, s.rows ++ [fillGroupLog input]⟩
  else return ⟨worker, s.rows⟩

/-! ## Shares -/

/-- The quantities of one row. -/
def rowWork (groups : List GroupInputLog) : Work
  | .prefillTokens => (groups.map fun g => (g.prefillTokens : ℚ)).sum
  | .decodePasses => (groups.map fun g => (g.decodeRequestCount : ℚ)).sum
  | .batchTokens => (groups.map fun g => (g.batchTokens : ℚ)).sum
  | .decodeKv => (groups.map fun g => (g.decodeKvTotal : ℚ)).sum
  | .causal => causalWork groups

theorem list_sum_apply (works : List Work) (quantity : Quantity) :
    works.sum quantity = (works.map fun work => work quantity).sum := by
  induction works with
  | nil => rfl
  | cons work works ih =>
    rw [List.sum_cons, Pi.add_apply, ih, List.map_cons, List.sum_cons]

theorem collectActual_work (rows : List (List GroupInputLog)) :
    (collectActual rows).work = (rows.map rowWork).sum := by
  funext quantity
  rw [list_sum_apply, List.map_map]
  cases quantity with
  | prefillTokens | decodePasses | batchTokens | decodeKv | causal => rfl

def groupWork (g : GroupInputLog) : Work := rowWork [g]

theorem rowWork_eq_sum (groups : List GroupInputLog) :
    rowWork groups = (groups.map groupWork).sum := by
  funext quantity
  rw [list_sum_apply, List.map_map]
  cases quantity with
  | prefillTokens | decodePasses | batchTokens | decodeKv =>
    simp [rowWork, groupWork, Function.comp_def]
  | causal => simp [rowWork, groupWork, causalWork, Function.comp_def]

theorem groupWork_eq {kvLens : List Nat} {g : GroupInputLog}
    (hprefill : g.prefillTokens = (g.prefillChunkPairs.map Prod.snd).sum)
    (hrows : g.decodeRequestCount = kvLens.length) (hkv : g.decodeKvTotal = kvLens.sum)
    (hbatch : g.batchTokens = g.prefillTokens + g.decodeRequestCount) :
    groupWork g = (g.prefillChunkPairs.map chunkShare).sum + (kvLens.map rowShare).sum := by
  have hsingle : ∀ x : ℚ, [x].sum = x := fun x => by simp
  have htokens : (g.prefillChunkPairs.map fun chunk => (chunk.2 : ℚ)).sum =
      ((g.prefillChunkPairs.map Prod.snd).sum : Nat) := by
    rw [Nat.cast_list_sum, List.map_map]
    rfl
  have hlength : (kvLens.map fun _ => (1 : ℚ)).sum = (kvLens.length : Nat) := by simp
  have hread : (kvLens.map fun kv : Nat => (kv : ℚ)).sum = (kvLens.sum : Nat) := by
    rw [Nat.cast_list_sum]
  have hnone : ∀ {α : Type} (l : List α), (l.map fun _ => (0 : ℚ)).sum = 0 := fun l => by simp
  funext quantity
  rw [Pi.add_apply, list_sum_apply, list_sum_apply, List.map_map, List.map_map]
  simp only [groupWork, Function.comp_def]
  cases quantity with
  | prefillTokens =>
    simp only [rowWork, List.map_cons, List.map_nil, hsingle, chunkShare, rowShare, hnone, add_zero]
    rw [htokens, hprefill]
  | decodePasses =>
    simp only [rowWork, List.map_cons, List.map_nil, hsingle, chunkShare, rowShare, hnone, zero_add]
    rw [hlength, hrows]
  | batchTokens =>
    simp only [rowWork, List.map_cons, List.map_nil, hsingle, chunkShare, rowShare]
    rw [htokens, hlength, hbatch, hprefill, hrows, Nat.cast_add]
  | decodeKv =>
    simp only [rowWork, List.map_cons, List.map_nil, hsingle, chunkShare, rowShare, hnone, zero_add]
    rw [hread, hkv]
  | causal =>
    simp only [rowWork, causalWork, List.map_cons, List.map_nil, hsingle, chunkShare, rowShare,
      hnone, add_zero]

/-! ## Charging a row -/

/-- The part of an iteration that is not completed yet: the scheduled chunks left on each
partition, and whether its decodes are still to take their step. -/
@[ext]
structure Due (n : Nat) where
  chunks : Fin n → List RequestId
  runs : Fin n → Bool

def chunkOwed (view : RequestView n) : Work :=
  (view.context.map fun context => chunkShare context.activeChunk).getD 0

def rowOwed : Option (ResidentDecodeState acc) → Work
  | none => 0
  | some state => if 0 < state.remainingDecode then rowShare state.currentKv else 0

/-- What a request is to compute in the iteration. -/
def owed (due : Due n) (r : RequestId) (e : Entries acc n) : Work :=
  match e.phase with
  | .chunked p => if r ∈ due.chunks p then chunkOwed e.view else 0
  | .resident p => if due.runs p then rowOwed (e.decode p) else 0
  | _ => 0

/-- What the partitions still to be completed have in the iteration. -/
def dueOn (w : ChunkedPrefillWorker P acc n) (rest : List (Fin n)) : Due n where
  chunks := fun p => if p ∈ rest then (w.store.partitions p).prefillAdmits else []
  runs := fun p => decide (p ∈ rest) && w.batchPlan p

/-- Nothing but prefills is in the chunks of a batch that was just formed. -/
def ChunksPlaced (w : ChunkedPrefillWorker P acc n) : Prop :=
  ∀ p, ∀ r ∈ (w.store.partitions p).prefillAdmits, w.store.phaseOf r = .chunked p

section charge

variable [PendingOrderPolicy P] {cfg : ChunkedPrefillConfig n} {w : ChunkedPrefillWorker P acc n}

/-- A request's share of one partition's group. -/
def shareOn (w : ChunkedPrefillWorker P acc n) (p : Fin n) (r : RequestId) : Work :=
  (if r ∈ (w.store.partitions p).prefillAdmits then chunkOwed (w.store.ledger.viewOf r) else 0) +
    if w.batchPlan p then
      if r ∈ w.decodeStates p then rowOwed (w.store.decodeOf p r) else 0
    else 0

omit [PendingOrderPolicy P] in
theorem rowOwed_of_notMem {p : Fin n} {r : RequestId} (h : r ∉ w.decodeStates p) :
    rowOwed (w.store.decodeOf p r) = 0 := by
  cases hstate : w.store.decodeOf p r with
  | none => rfl
  | some state =>
    have hdone : ¬ 0 < state.remainingDecode := fun hlive => h (mem_decodeStates.mpr
      ⟨state, hstate, hlive⟩)
    rw [rowOwed, if_neg hdone]

theorem owed_eq_sum (h : Located cfg w) (hplaced : ChunksPlaced w) (r : RequestId) :
    owed (dueOn w (List.finRange n)) r (w.entriesOf r) = ∑ p, shareOn w p r := by
  have hrows : ∀ p, w.store.phaseOf r ≠ .resident p → r ∉ w.decodeStates p :=
    fun p hphase hlive => hphase (h.resident_of_live hlive)
  have hchunks : ∀ p, w.store.phaseOf r ≠ .chunked p → r ∉ (w.store.partitions p).prefillAdmits :=
    fun p hphase hmem => hphase (hplaced p r hmem)
  have hphase : (w.entriesOf r).phase = w.store.phaseOf r := rfl
  unfold owed
  split
  · next q hq =>
    rw [hphase] at hq
    rw [Finset.sum_eq_single q]
    · have hnone : r ∉ w.decodeStates q := hrows q fun hresident => by
        cases hq.symm.trans hresident
      simp [shareOn, dueOn, hnone, ChunkedPrefillWorker.entriesOf]
    · intro p _ hp
      have hother : w.store.phaseOf r ≠ .chunked p := by
        rw [hq]
        exact fun heq => hp (Phase.chunked.inj heq).symm
      have hnone : r ∉ w.decodeStates p := hrows p fun hresident => by
        cases hq.symm.trans hresident
      simp [shareOn, hchunks p hother, hnone]
    · exact fun hmem => absurd (Finset.mem_univ q) hmem
  · next q hq =>
    rw [hphase] at hq
    rw [Finset.sum_eq_single q]
    · have hnone : r ∉ (w.store.partitions q).prefillAdmits :=
        hchunks q fun hchunked => by cases hq.symm.trans hchunked
      by_cases hlive : r ∈ w.decodeStates q
      · simp [shareOn, dueOn, hnone, hlive, ChunkedPrefillWorker.entriesOf]
      · have hzero := rowOwed_of_notMem hlive
        simp [shareOn, dueOn, hnone, hlive, ChunkedPrefillWorker.entriesOf, hzero]
    · intro p _ hp
      have hother : w.store.phaseOf r ≠ .resident p := by
        rw [hq]
        exact fun heq => hp (Phase.resident.inj heq).symm
      have hnone : r ∉ (w.store.partitions p).prefillAdmits :=
        hchunks p fun hchunked => by cases hq.symm.trans hchunked
      simp [shareOn, hrows p hother, hnone]
    · exact fun hmem => absurd (Finset.mem_univ q) hmem
  · next hchunked hresident =>
    symm
    apply Finset.sum_eq_zero
    intro p _
    simp [shareOn, hchunks p (hchunked p), hrows p (hresident p)]

omit [PendingOrderPolicy P] in
/-- The chunks of a group are the shares of the scheduled prefills. -/
theorem chunkShares {requests : List RequestId} {chunks : List (Nat × Nat)}
    (h : (requests.mapM fun request => do
      let resolvedPrefill ← w.resolvedPrefillContext request
      return resolvedPrefill.activeChunk) = .ok chunks) :
    chunks.map chunkShare = requests.map fun r => chunkOwed (w.store.ledger.viewOf r) := by
  have hall := mapM_eq_ok_iff.mp h
  clear h
  induction hall with
  | nil => rfl
  | cons hchunk _ ih =>
    simp only [bind_eq_ok_iff, ChunkedPrefillWorker.resolvedPrefillContext,
      required_eq_ok_iff] at hchunk
    obtain ⟨context, hcontext, hchunk⟩ := hchunk
    obtain rfl := Except.ok.inj hchunk
    have hview : (w.store.ledger.viewOf _).context = some context := hcontext
    rw [List.map_cons, List.map_cons, ih, chunkOwed, hview]
    rfl

omit [PendingOrderPolicy P] in
/-- Its decode rows are the shares of the live decodes. -/
theorem rowShares (p : Fin n) : ((w.store.partitions p).decodeMembers.map Prod.snd).map rowShare =
      (w.decodeStates p).map fun r => rowOwed (w.store.decodeOf p r) := by
  simp only [ResidentPartitionState.decodeMembers, ChunkedPrefillWorker.decodeStates,
    ResidentPartitionState.decodeStates, List.map_map]
  apply List.map_congr_left
  intro e he
  obtain ⟨hslot, hlive⟩ := List.mem_filter.mp he
  have hstate : w.store.decodeOf p e.1 = some e.2 := by
    rw [KvCacheStore.decodeOf, SlotList.get?_eq_some_iff]
    exact hslot
  simp only [Function.comp_apply, hstate, rowOwed]
  rw [if_pos (of_decide_eq_true hlive)]

omit [PendingOrderPolicy P] in
/-- A group is what its partition's requests have a share in. -/
theorem buildGroup_work {p : Fin n} {g : ArchGroupInput} (h : w.buildGroup p = .ok g) :
    groupWork g.groupLog = ((w.store.partitions p).prefillAdmits.map fun r =>
        chunkOwed (w.store.ledger.viewOf r)).sum +
      if w.batchPlan p then
        ((w.decodeStates p).map fun r => rowOwed (w.store.decodeOf p r)).sum
      else 0 := by
  simp only [ChunkedPrefillWorker.buildGroup, bind_eq_ok_iff] at h
  obtain ⟨chunks, hchunks, h⟩ := h
  obtain rfl := Except.ok.inj h
  refine (groupWork_eq rfl rfl rfl rfl).trans ?_
  dsimp only [ArchGroupInput.groupLog]
  rw [chunkShares hchunks]
  congr 1
  split
  · rw [rowShares]
  · rfl

theorem sum_ite_mem_list {α M : Type*} [DecidableEq α] [AddCommMonoid M] {S : Finset α}
    {l : List α} (hnodup : l.Nodup) (hsub : ∀ a ∈ l, a ∈ S) (f : α → M) :
    (∑ a ∈ S, if a ∈ l then f a else 0) = (l.map f).sum := by
  have hfilter : S.filter (fun a => a ∈ l) = l.toFinset := by
    ext a
    simp only [Finset.mem_filter, List.mem_toFinset]
    exact ⟨fun h => h.2, fun h => ⟨hsub a h, h⟩⟩
  rw [← Finset.sum_filter, hfilter, List.sum_toFinset f hnodup]

theorem buildInput_work (h : Located cfg w) {S : Finset RequestId}
    (hmem : ∀ p, ∀ r ∈ (w.store.partitions p).prefillAdmits ++ w.decodeStates p, r ∈ S)
    {partitions : List (Fin n)} {input : List ArchGroupInput}
    (hinput : partitions.mapM w.buildGroup = .ok input) :
    (input.map fun g => groupWork g.groupLog) = partitions.map fun p => ∑ r ∈ S, shareOn w p r := by
  have hall := mapM_eq_ok_iff.mp hinput
  clear hinput
  induction hall with
  | nil => rfl
  | @cons p g _ _ hgroup _ ih =>
    rw [List.map_cons, List.map_cons, ih, buildGroup_work hgroup]
    congr 1
    simp only [shareOn, Finset.sum_add_distrib]
    congr 1
    · exact (sum_ite_mem_list (h.scheduled.nodup p)
        (fun r hr => hmem p r (List.mem_append_left _ hr)) _).symm
    · split
      · exact (sum_ite_mem_list (nodup_decodeStates w p)
          (fun r hr => hmem p r (List.mem_append_right _ hr)) _).symm
      · simp

theorem exists_batchBook (h : Located cfg w) (hplaced : ChunksPlaced w)
    {input : List ArchGroupInput} (hinput : w.buildInput = .ok input) :
    ∃ book : RequestId →₀ Work, (∀ r, book r = owed (dueOn w (List.finRange n)) r (w.entriesOf r)) ∧
      (book.sum fun _ work => work) = rowWork (fillGroupLog input) := by
  set S := ((List.finRange n).flatMap fun p =>
    (w.store.partitions p).prefillAdmits ++ w.decodeStates p).toFinset with hS
  have hmem : ∀ p, ∀ r ∈ (w.store.partitions p).prefillAdmits ++ w.decodeStates p, r ∈ S := by
    intro p r hr
    rw [hS, List.mem_toFinset, List.mem_flatMap]
    exact ⟨p, List.mem_finRange p, hr⟩
  have houtside : ∀ r, owed (dueOn w (List.finRange n)) r (w.entriesOf r) ≠ 0 → r ∈ S := by
    intro r hne
    by_contra hr
    apply hne
    rw [owed_eq_sum h hplaced]
    apply Finset.sum_eq_zero
    intro p _
    have hchunk : r ∉ (w.store.partitions p).prefillAdmits :=
      fun hmem' => hr (hmem p r (List.mem_append_left _ hmem'))
    have hrow : r ∉ w.decodeStates p := fun hmem' => hr (hmem p r (List.mem_append_right _ hmem'))
    simp [shareOn, hchunk, hrow]
  refine ⟨Finsupp.onFinset S _ houtside, fun r => rfl, ?_⟩
  have hgroups := buildInput_work h hmem hinput
  rw [Finsupp.onFinset_sum _ fun _ => rfl, rowWork_eq_sum, fillGroupLog, List.map_map]
  calc ∑ r ∈ S, owed (dueOn w (List.finRange n)) r (w.entriesOf r)
      = ∑ r ∈ S, ∑ p, shareOn w p r := Finset.sum_congr rfl fun r _ => owed_eq_sum h hplaced r
    _ = ∑ p, ∑ r ∈ S, shareOn w p r := Finset.sum_comm
    _ = (input.map fun g => groupWork g.groupLog).sum := by
        rw [hgroups, Fin.sum_univ_def]

end charge

end ServingSim
