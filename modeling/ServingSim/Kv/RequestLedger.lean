import ServingSim.Kv.PrefillContext

/-
  The KV owner's request-keyed side tables (`request_ledger`).

  A request is placed, promises a footprint, may keep that footprint through
  chunked prefill, may hold prefilled KV awaiting a pull, carries a resolved
  prefill context, and drops all of it on release. Beside the tables run two
  totals per partition: what is reserved (promised plus chunked prefill, with a
  count) and what is held. A `RequestLedger` carries the proof that both are the
  sums over the tables, so an operation that forgot a decrement could not be
  written down.

  Renamed (Rust ↔ Lean):
    `promised` and the other `HashMap`s ↔ key-value tables (`KeyedTotal.Table`)
    the `Vec`s indexed by partition ↔ functions from `Fin n`
-/

namespace ServingSim

open KeyedTotal

/-! ## Weights of the totals -/

/-- What one promise counts for on partition `p`. -/
def promiseUnits {n : Nat} (p : Fin n) (_ : RequestId) (entry : Fin n × Nat × Nat) : Nat :=
  if entry.1 = p then entry.2.1 else 0

def promiseCount {n : Nat} (p : Fin n) (_ : RequestId) (entry : Fin n × Nat × Nat) : Nat :=
  if entry.1 = p then 1 else 0

/-- What one chunked prefill counts for on partition `p`. -/
def chunkedUnits {n : Nat} (p : Fin n) (_ : RequestId) (entry : Fin n × Nat) : Nat :=
  if entry.1 = p then entry.2 else 0

def chunkedCount {n : Nat} (p : Fin n) (_ : RequestId) (entry : Fin n × Nat) : Nat :=
  if entry.1 = p then 1 else 0

/-- What one held reservation counts for on partition `p`. -/
def heldUnits {n : Nat} (p : Fin n) (_ : RequestId) (entry : Fin n × Nat × Nat) : Nat :=
  if entry.1 = p then entry.2.1 else 0

/-! ## The tables -/

structure RequestLedger (n : Nat) where
  /-- Reserved-but-not-yet-resident footprints: partition, charge, and the
  sequence number the promise was made at. -/
  promised : Table RequestId (Fin n × Nat × Nat)
  nextPromise : Nat
  /-- Full reservations held across partial-prefill iterations. -/
  chunkedPrefill : Table RequestId (Fin n × Nat)
  /-- Charge and count of `promised` plus `chunkedPrefill`. -/
  reservedByPartition : Fin n → Nat × Nat
  /-- Prefilled KV awaiting a pull: partition, units, context tokens. -/
  held : Table RequestId (Fin n × Nat × Nat)
  heldByPartition : Fin n → Nat
  /-- Sticky placement. -/
  placement : Table RequestId (Fin n)
  resolvedPrefillContexts : Table RequestId ResolvedPrefillContext
  reserved_eq : ∀ p, reservedByPartition p =
    (total (promiseUnits p) promised + total (chunkedUnits p) chunkedPrefill,
      total (promiseCount p) promised + total (chunkedCount p) chunkedPrefill)
  held_eq : ∀ p, heldByPartition p = total (heldUnits p) held

namespace RequestLedger

variable {n : Nat}

def new (n : Nat) : RequestLedger n where
  promised := ∅
  nextPromise := 0
  chunkedPrefill := ∅
  reservedByPartition := fun _ => (0, 0)
  held := ∅
  heldByPartition := fun _ => 0
  placement := ∅
  resolvedPrefillContexts := ∅
  reserved_eq := fun _ => rfl
  held_eq := fun _ => rfl

def addReserved (reserved : Fin n → Nat × Nat) (partition : Fin n) (charge : Nat) :
    Fin n → Nat × Nat :=
  Function.update reserved partition
    ((reserved partition).1 + charge, (reserved partition).2 + 1)

def removeReserved (reserved : Fin n → Nat × Nat) (partition : Fin n) (charge : Nat) :
    Fin n → Nat × Nat :=
  Function.update reserved partition
    ((reserved partition).1 - charge, (reserved partition).2 - 1)

theorem addReserved_apply (reserved : Fin n → Nat × Nat) (partition p : Fin n) (charge : Nat) :
    addReserved reserved partition charge p =
      ((reserved p).1 + (if partition = p then charge else 0),
        (reserved p).2 + (if partition = p then 1 else 0)) := by
  by_cases h : p = partition
  · subst h; simp [addReserved]
  · simp [addReserved, h, Ne.symm h]

theorem removeReserved_apply (reserved : Fin n → Nat × Nat) (partition p : Fin n) (charge : Nat) :
    removeReserved reserved partition charge p =
      ((reserved p).1 - (if partition = p then charge else 0),
        (reserved p).2 - (if partition = p then 1 else 0)) := by
  by_cases h : p = partition
  · subst h; simp [removeReserved]
  · simp [removeReserved, h, Ne.symm h]

/-- Take an entry a table gave up, if any, out of the reserved totals. -/
def removePrevious (reserved : Fin n → Nat × Nat) : Option (Fin n × Nat) → Fin n → Nat × Nat
  | none => reserved
  | some (partition, charge) => removeReserved reserved partition charge

/-- What a request promised: its partition and charge. -/
def promisedEntry (ledger : RequestLedger n) (request : RequestId) : Option (Fin n × Nat) :=
  (ledger.promised.lookup request).map fun entry => (entry.1, entry.2.1)

theorem removePrevious_promised (ledger : RequestLedger n) (reserved : Fin n → Nat × Nat)
    (request : RequestId) (p : Fin n) :
    removePrevious reserved (ledger.promisedEntry request) p =
      ((reserved p).1 - weightAt (promiseUnits p) request ledger.promised,
        (reserved p).2 - weightAt (promiseCount p) request ledger.promised) := by
  cases h : ledger.promised.lookup request with
  | none => simp [promisedEntry, weightAt, h, removePrevious]
  | some entry =>
    simp only [promisedEntry, weightAt, h, Option.map_some, removePrevious, removeReserved_apply,
      promiseUnits, promiseCount]

theorem removePrevious_chunked (ledger : RequestLedger n) (reserved : Fin n → Nat × Nat)
    (request : RequestId) (p : Fin n) :
    removePrevious reserved (ledger.chunkedPrefill.lookup request) p =
      ((reserved p).1 - weightAt (chunkedUnits p) request ledger.chunkedPrefill,
        (reserved p).2 - weightAt (chunkedCount p) request ledger.chunkedPrefill) := by
  cases h : ledger.chunkedPrefill.lookup request with
  | none => simp [weightAt, h, removePrevious]
  | some entry =>
    simp only [weightAt, h, removePrevious, removeReserved_apply, chunkedUnits, chunkedCount]

/-! ## Promises -/

def promise (ledger : RequestLedger n) (request : RequestId) (partition : Fin n) (charge : Nat) :
    RequestLedger n :=
  { ledger with
    promised := ledger.promised.insert request (partition, charge, ledger.nextPromise)
    reservedByPartition := addReserved
      (removePrevious ledger.reservedByPartition (ledger.promisedEntry request)) partition charge
    nextPromise := ledger.nextPromise + 1
    placement := ledger.placement.insert request partition
    reserved_eq := by
      intro p
      have hu := total_insert (promiseUnits p) request (partition, charge, ledger.nextPromise)
        ledger.promised
      have hc := total_insert (promiseCount p) request (partition, charge, ledger.nextPromise)
        ledger.promised
      have hu' := weight_le_total (promiseUnits p) request ledger.promised
      have hc' := weight_le_total (promiseCount p) request ledger.promised
      rw [addReserved_apply, removePrevious_promised, ledger.reserved_eq, Prod.mk.injEq]
      simp only [promiseUnits, promiseCount] at hu hc hu' hc' ⊢
      constructor <;> omega }

def forgetPromise (ledger : RequestLedger n) (request : RequestId) : RequestLedger n :=
  { ledger with
    promised := ledger.promised.erase request
    reservedByPartition := removePrevious ledger.reservedByPartition (ledger.promisedEntry request)
    reserved_eq := by
      intro p
      have hu := total_erase (promiseUnits p) request ledger.promised
      have hc := total_erase (promiseCount p) request ledger.promised
      rw [removePrevious_promised, ledger.reserved_eq, Prod.mk.injEq]
      constructor <;> omega }

def hasPromise (ledger : RequestLedger n) (request : RequestId) : Bool :=
  request ∈ ledger.promised ∨ request ∈ ledger.chunkedPrefill

def partitionPromised (ledger : RequestLedger n) (partition : Fin n) : Nat :=
  (ledger.reservedByPartition partition).1

def partitionPromisedCount (ledger : RequestLedger n) (partition : Fin n) : Nat :=
  (ledger.reservedByPartition partition).2

/-! ## Chunked prefill -/

/-- The reservation changes tables; without a promise the source panics, and the
ledger stays as it is. -/
def promotePromiseToChunkedPrefill (ledger : RequestLedger n) (request : RequestId) :
    RequestLedger n :=
  match h : ledger.promised.lookup request with
  | none => ledger
  | some (partition, charge, sequence) =>
    { ledger with
      promised := ledger.promised.erase request
      chunkedPrefill := ledger.chunkedPrefill.insert request (partition, charge)
      reservedByPartition :=
        removePrevious ledger.reservedByPartition (ledger.chunkedPrefill.lookup request)
      reserved_eq := by
        intro p
        have hu := total_erase_of_lookup (promiseUnits p) h
        have hc := total_erase_of_lookup (promiseCount p) h
        have iu := total_insert (chunkedUnits p) request (partition, charge) ledger.chunkedPrefill
        have ic := total_insert (chunkedCount p) request (partition, charge) ledger.chunkedPrefill
        have iu' := weight_le_total (chunkedUnits p) request ledger.chunkedPrefill
        have ic' := weight_le_total (chunkedCount p) request ledger.chunkedPrefill
        rw [removePrevious_chunked, ledger.reserved_eq, Prod.mk.injEq]
        simp only [promiseUnits, promiseCount, chunkedUnits, chunkedCount] at hu hc iu ic iu' ic' ⊢
        constructor <;> omega }

def forgetChunkedPrefill (ledger : RequestLedger n) (request : RequestId) : RequestLedger n :=
  { ledger with
    chunkedPrefill := ledger.chunkedPrefill.erase request
    reservedByPartition :=
      removePrevious ledger.reservedByPartition (ledger.chunkedPrefill.lookup request)
    reserved_eq := by
      intro p
      have hu := total_erase (chunkedUnits p) request ledger.chunkedPrefill
      have hc := total_erase (chunkedCount p) request ledger.chunkedPrefill
      rw [removePrevious_chunked, ledger.reserved_eq, Prod.mk.injEq]
      constructor <;> omega }

def hasChunkedPrefill (ledger : RequestLedger n) (request : RequestId) : Bool :=
  request ∈ ledger.chunkedPrefill

/-! ## Draining -/

/-- Take the charges of a list of promises out of the reserved totals. -/
def removeAllReserved (reserved : Fin n → Nat × Nat)
    (drained : List (Sigma fun _ : RequestId => Fin n × Nat × Nat)) : Fin n → Nat × Nat :=
  drained.foldl (fun reserved e => removeReserved reserved e.2.1 e.2.2.1) reserved

theorem removeAllReserved_apply (reserved : Fin n → Nat × Nat)
    (drained : List (Sigma fun _ : RequestId => Fin n × Nat × Nat)) (p : Fin n) :
    removeAllReserved reserved drained p =
      ((reserved p).1 - (drained.map fun e => promiseUnits p e.1 e.2).sum,
        (reserved p).2 - (drained.map fun e => promiseCount p e.1 e.2).sum) := by
  induction drained generalizing reserved with
  | nil => rfl
  | cons e drained ih =>
    have hstep := ih (removeReserved reserved e.2.1 e.2.2.1)
    rw [removeReserved_apply] at hstep
    simp only [List.map_cons, List.sum_cons, promiseUnits, promiseCount, Nat.sub_sub] at hstep ⊢
    exact hstep

/-- The promises in the order they were made. -/
def promiseOrder (ledger : RequestLedger n) : List (Sigma fun _ : RequestId => Fin n × Nat × Nat) :=
  ledger.promised.entries.insertionSort fun a b => a.2.2.2 ≤ b.2.2.2

/-- Empty `promised` and report partition and request in the order the promises
were made. -/
def drainPromised (ledger : RequestLedger n) : RequestLedger n × List (Fin n × RequestId) :=
  ({ ledger with
      promised := ∅
      reservedByPartition := removeAllReserved ledger.reservedByPartition ledger.promised.entries
      reserved_eq := by
        intro p
        rw [removeAllReserved_apply, ledger.reserved_eq, total_empty, total_empty]
        simp only [Nat.zero_add, total, Nat.add_sub_cancel_left] },
    ledger.promiseOrder.map fun e => (e.2.1, e.1))

theorem drainPromised_perm (ledger : RequestLedger n) :
    ledger.drainPromised.2.Perm (ledger.promised.entries.map fun e => (e.2.1, e.1)) :=
  (List.perm_insertionSort _ _).map _

/-! ## Held KV -/

/-- Take a held entry that was written over or dropped, if any, out of the held
totals. -/
def removePreviousHeld (totals : Fin n → Nat) : Option (Fin n × Nat × Nat) → Fin n → Nat
  | none => totals
  | some (partition, units, _) => Function.update totals partition (totals partition - units)

theorem removePreviousHeld_lookup (ledger : RequestLedger n) (request : RequestId) (p : Fin n) :
    removePreviousHeld ledger.heldByPartition (ledger.held.lookup request) p =
      ledger.heldByPartition p - weightAt (heldUnits p) request ledger.held := by
  cases h : ledger.held.lookup request with
  | none => simp [weightAt, h, removePreviousHeld]
  | some entry =>
    by_cases hp : p = entry.1
    · simp [weightAt, h, removePreviousHeld, heldUnits, hp]
    · simp [weightAt, h, removePreviousHeld, heldUnits, hp, Ne.symm hp]

/-- Move a prefilled request's KV into the held table; it is no longer placed. -/
def hold (ledger : RequestLedger n) (request : RequestId) (partition : Fin n)
    (units kvTokens : Nat) : RequestLedger n :=
  { ledger with
    placement := ledger.placement.erase request
    held := ledger.held.insert request (partition, units, kvTokens)
    heldByPartition :=
      let dropped := removePreviousHeld ledger.heldByPartition (ledger.held.lookup request)
      Function.update dropped partition (dropped partition + units)
    held_eq := by
      intro p
      have hu := total_insert (heldUnits p) request (partition, units, kvTokens) ledger.held
      have hu' := weight_le_total (heldUnits p) request ledger.held
      have hd := ledger.removePreviousHeld_lookup request p
      rw [ledger.held_eq] at hd
      by_cases hp : p = partition
      · subst hp
        simp only [heldUnits, if_true] at hu hu' hd
        simp only [Function.update_self, hd]
        omega
      · simp only [heldUnits, Ne.symm hp, if_false] at hu hu' hd
        simp only [Function.update_of_ne hp, hd]
        omega }

/-- Drop a held reservation and report its partition and context tokens. -/
def takeHeld (ledger : RequestLedger n) (request : RequestId) :
    RequestLedger n × Option (Fin n × Nat) :=
  ({ ledger with
      held := ledger.held.erase request
      heldByPartition := removePreviousHeld ledger.heldByPartition (ledger.held.lookup request)
      held_eq := by
        intro p
        have hu := total_erase (heldUnits p) request ledger.held
        rw [removePreviousHeld_lookup, ledger.held_eq]
        omega },
    (ledger.held.lookup request).map fun entry => (entry.1, entry.2.2))

def partitionHeld (ledger : RequestLedger n) (partition : Fin n) : Nat :=
  ledger.heldByPartition partition

/-! ## Placement and prefill contexts -/

def forgetPlacement (ledger : RequestLedger n) (request : RequestId) : RequestLedger n :=
  { ledger with placement := ledger.placement.erase request }

def setPrefillContext (ledger : RequestLedger n) (request : RequestId)
    (resolvedPrefill : ResolvedPrefillContext) : RequestLedger n :=
  { ledger with
    resolvedPrefillContexts := ledger.resolvedPrefillContexts.insert request resolvedPrefill }

/-- Change a request's prefill context in place; without one the source panics. -/
def updatePrefillContext (ledger : RequestLedger n) (request : RequestId)
    (f : ResolvedPrefillContext → ResolvedPrefillContext) : RequestLedger n :=
  match ledger.resolvedPrefillContexts.lookup request with
  | none => ledger
  | some context => ledger.setPrefillContext request (f context)

def schedulePrefillChunk (ledger : RequestLedger n) (request : RequestId) (chunkTokens : Nat) :
    RequestLedger n :=
  ledger.updatePrefillContext request fun context => context.scheduleChunk chunkTokens

def completePrefillChunk (ledger : RequestLedger n) (request : RequestId) : RequestLedger n :=
  ledger.updatePrefillContext request ResolvedPrefillContext.completeChunk

def prefillContext (ledger : RequestLedger n) (request : RequestId) :
    Option ResolvedPrefillContext :=
  ledger.resolvedPrefillContexts.lookup request

def takePrefillContext (ledger : RequestLedger n) (request : RequestId) : RequestLedger n :=
  { ledger with
    resolvedPrefillContexts := ledger.resolvedPrefillContexts.erase request }

end RequestLedger

end ServingSim
