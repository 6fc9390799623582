import Mathlib.Data.List.Sort
import ServingSim.Common.Request

/-
  Pending-request selection (`admission::policy`).

  A policy owns the set of waiting requests and shows one of them, its head, to
  the lifecycle. `PendingOrderPolicy` is the trait: besides the operations it
  carries what they do to the pending set, so that nothing about an order can
  lose or duplicate a request. `PendingOrder` is the runtime dispatcher over the
  four orders; a binary heap is kept as the list of its entries by rank.

  The policies' context type is always the unit type and is left out.
-/

namespace ServingSim

/-- Immutable facts a pending order ranks on. -/
structure AdmissionCandidate where
  requestId : RequestId
  enqueueSequence : Nat
  freshPromptTokens : Nat
  remainingOutputTokens : Nat
  sessionInput : SessionInput
  conversationStartTime : Time
  /-- Declared prefix resident at enqueue. -/
  residentPrefixTokens : Nat
  /-- The entry came from a decode retraction. -/
  retracted : Bool
  deriving DecidableEq, Repr

def AdmissionCandidate.queuedKvTokens (candidate : AdmissionCandidate) : Nat :=
  candidate.freshPromptTokens + candidate.sessionInput.declaredPrefixTokens +
    candidate.remainingOutputTokens

/-- Per-admission sequence for stable tie-breaking. -/
structure EnqueueSequence where
  next : Nat
  deriving DecidableEq, Repr

def EnqueueSequence.freeze (sequence : EnqueueSequence) (requestId : RequestId)
    (freshPromptTokens remainingOutputTokens : Nat) (sessionInput : SessionInput)
    (conversationStartTime : Time) (residentPrefixTokens : Nat) :
    EnqueueSequence × AdmissionCandidate :=
  (⟨sequence.next + 1⟩,
    { requestId := requestId
      enqueueSequence := sequence.next
      freshPromptTokens := freshPromptTokens
      remainingOutputTokens := remainingOutputTokens
      sessionInput := sessionInput
      conversationStartTime := conversationStartTime
      residentPrefixTokens := residentPrefixTokens
      retracted := false })

def EnqueueSequence.freezeRetracted (sequence : EnqueueSequence) (requestId : RequestId)
    (freshPromptTokens remainingOutputTokens : Nat) (sessionInput : SessionInput)
    (conversationStartTime : Time) (residentPrefixTokens : Nat) :
    EnqueueSequence × AdmissionCandidate :=
  let frozen := sequence.freeze requestId freshPromptTokens remainingOutputTokens sessionInput
    conversationStartTime residentPrefixTokens
  (frozen.1, { frozen.2 with retracted := true })

/-- Owns the pending set and selects one stable head. -/
class PendingOrderPolicy (P : Type) where
  /-- The pending set. -/
  candidates : P → List AdmissionCandidate
  push : P → AdmissionCandidate → P
  /-- Return a preempted request ahead of every waiting one. -/
  pushFront : P → AdmissionCandidate → P
  /-- Reconcile the head with live KV state. -/
  refreshHead : P → (AdmissionCandidate → Nat) → P
  peek : P → Option AdmissionCandidate
  pop : P → P
  remove : P → RequestId → Option AdmissionCandidate × P
  push_perm : ∀ policy c, (candidates (push policy c)).Perm (c :: candidates policy)
  pushFront_perm : ∀ policy c, (candidates (pushFront policy c)).Perm (c :: candidates policy)
  refreshHead_perm : ∀ policy live, (candidates (refreshHead policy live)).Perm (candidates policy)
  peek_eq_none_iff : ∀ policy, peek policy = none ↔ candidates policy = []
  pop_perm : ∀ policy c, peek policy = some c →
    (candidates policy).Perm (c :: candidates (pop policy))
  remove_eq_none_iff : ∀ policy r,
    (remove policy r).1 = none ↔ ∀ c ∈ candidates policy, c.requestId ≠ r
  remove_perm : ∀ policy r, ((candidates policy).map fun c => c.requestId).Nodup →
    (candidates (remove policy r).2).Perm ((candidates policy).filter fun c => c.requestId ≠ r)

namespace PendingOrderPolicy

variable {P : Type} [PendingOrderPolicy P]

def len (policy : P) : Nat := (candidates policy).length

def contains (policy : P) (request : RequestId) : Bool :=
  (candidates policy).any fun c => c.requestId = request

theorem mem_of_peek {policy : P} {c : AdmissionCandidate} (h : peek policy = some c) :
    c ∈ candidates policy :=
  (pop_perm policy c h).mem_iff.mpr List.mem_cons_self

end PendingOrderPolicy

/-! ## The four orders -/

inductive PendingOrderKind where
  /-- Oldest conversation first. -/
  | sessionStart
  /-- Plain request arrival order. -/
  | fifo
  /-- Smallest remaining work first. -/
  | shortestJobFirst
  /-- Most already-resident prefix KV first. -/
  | longestPrefixMatch
  deriving DecidableEq, Repr

/-- A queued candidate; `matchedPrefixTokens` is the longest-prefix order's key,
an upper bound on the resident prefix. -/
structure QueueEntry where
  matchedPrefixTokens : Nat
  candidate : AdmissionCandidate
  deriving DecidableEq, Repr

/-- What an order ranks an entry by: smaller goes first. -/
def QueueEntry.rank (kind : PendingOrderKind) (entry : QueueEntry) : Int × Nat :=
  match kind with
  | .fifo => (0, 0)
  | .sessionStart => (entry.candidate.conversationStartTime, entry.candidate.enqueueSequence)
  | .shortestJobFirst => (entry.candidate.queuedKvTokens, entry.candidate.enqueueSequence)
  | .longestPrefixMatch => (-entry.matchedPrefixTokens, entry.candidate.enqueueSequence)

/-- `a` ranks no later than `b`. -/
def Precedes (kind : PendingOrderKind) (a b : QueueEntry) : Prop :=
  (a.rank kind).1 < (b.rank kind).1 ∨
    (a.rank kind).1 = (b.rank kind).1 ∧ (a.rank kind).2 ≤ (b.rank kind).2

instance (kind : PendingOrderKind) : DecidableRel (Precedes kind) := fun _ _ =>
  inferInstanceAs (Decidable (_ ∨ _ ∧ _))

instance (kind : PendingOrderKind) : Std.Total (Precedes kind) :=
  ⟨fun a b => by unfold Precedes; omega⟩

instance (kind : PendingOrderKind) : IsTrans QueueEntry (Precedes kind) :=
  ⟨fun a b c hab hbc => by unfold Precedes at *; omega⟩

structure PendingOrder where
  kind : PendingOrderKind
  /-- Entries by rank, the head first. -/
  queue : List QueueEntry
  ranked : queue.Pairwise (Precedes kind)

namespace PendingOrder

def new (kind : PendingOrderKind) : PendingOrder := ⟨kind, [], List.Pairwise.nil⟩

def candidates (order : PendingOrder) : List AdmissionCandidate :=
  order.queue.map fun entry => entry.candidate

theorem precedes_fifo (a b : QueueEntry) : Precedes .fifo a b :=
  .inr ⟨rfl, Nat.le_refl _⟩

/-- Put an entry where its rank says. -/
def insert (order : PendingOrder) (entry : QueueEntry) : PendingOrder where
  kind := order.kind
  queue := order.queue.orderedInsert (Precedes order.kind) entry
  ranked := order.ranked.orderedInsert entry

def entryOf (candidate : AdmissionCandidate) : QueueEntry :=
  ⟨candidate.residentPrefixTokens, candidate⟩

def push (order : PendingOrder) (candidate : AdmissionCandidate) : PendingOrder :=
  if h : order.kind = .fifo then
    { kind := order.kind
      queue := order.queue ++ [entryOf candidate]
      ranked := by
        rw [h]
        exact List.pairwise_of_forall precedes_fifo }
  else order.insert (entryOf candidate)

/-- Only arrival order has a front; a ranked order pushes. -/
def pushFront (order : PendingOrder) (candidate : AdmissionCandidate) : PendingOrder :=
  if h : order.kind = .fifo then
    { kind := order.kind
      queue := entryOf candidate :: order.queue
      ranked := by
        rw [h]
        exact List.pairwise_of_forall precedes_fifo }
  else order.push candidate

/-- Lower the head's key to the live value while it over-estimates. -/
def refreshLoop (live : AdmissionCandidate → Nat) : Nat → List QueueEntry → List QueueEntry
  | 0, queue => queue
  | _ + 1, [] => []
  | fuel + 1, head :: rest =>
    if head.matchedPrefixTokens ≤ live head.candidate then head :: rest
    else
      refreshLoop live fuel (rest.orderedInsert (Precedes .longestPrefixMatch)
        { head with matchedPrefixTokens := live head.candidate })

/-- The keys' sum: every correction lowers it. -/
def keySum (queue : List QueueEntry) : Nat :=
  (queue.map fun entry => entry.matchedPrefixTokens).sum

theorem refreshLoop_perm (live : AdmissionCandidate → Nat) (fuel : Nat) (queue : List QueueEntry) :
    ((refreshLoop live fuel queue).map fun entry => entry.candidate).Perm
      (queue.map fun entry => entry.candidate) := by
  induction fuel generalizing queue with
  | zero => exact .refl _
  | succ fuel ih =>
    cases queue with
    | nil => exact .refl _
    | cons head rest =>
      unfold refreshLoop
      split
      · exact .refl _
      · exact (ih _).trans ((List.perm_orderedInsert _ _ _).map _)

theorem refreshLoop_ranked (live : AdmissionCandidate → Nat) (fuel : Nat) {queue : List QueueEntry}
    (h : queue.Pairwise (Precedes .longestPrefixMatch)) :
    (refreshLoop live fuel queue).Pairwise (Precedes .longestPrefixMatch) := by
  induction fuel generalizing queue with
  | zero => exact h
  | succ fuel ih =>
    cases queue with
    | nil => exact h
    | cons head rest =>
      unfold refreshLoop
      split
      · exact h
      · exact ih ((List.pairwise_cons.mp h).2.orderedInsert _)

theorem refreshLoop_reconciled (live : AdmissionCandidate → Nat) (fuel : Nat)
    {queue : List QueueEntry} (h : keySum queue ≤ fuel) :
    ∀ head ∈ (refreshLoop live fuel queue).head?,
      head.matchedPrefixTokens ≤ live head.candidate := by
  induction fuel generalizing queue with
  | zero =>
    intro head hh
    have hmem : head.matchedPrefixTokens ∈ queue.map fun entry => entry.matchedPrefixTokens :=
      List.mem_map_of_mem (List.mem_of_mem_head? hh)
    have hle := List.single_le_sum (fun _ _ => Nat.zero_le _) _ hmem
    rw [keySum] at h
    omega
  | succ fuel ih =>
    cases queue with
    | nil => simp [refreshLoop]
    | cons head rest =>
      unfold refreshLoop
      split
      · rename_i hlive
        simpa using hlive
      · rename_i hlive
        refine ih ?_
        have hperm := (List.perm_orderedInsert (Precedes .longestPrefixMatch)
          { head with matchedPrefixTokens := live head.candidate } rest).map
          fun entry => entry.matchedPrefixTokens
        rw [keySum, hperm.sum_eq]
        simp only [keySum, List.map_cons, List.sum_cons] at h ⊢
        omega

def refreshHead (order : PendingOrder) (live : AdmissionCandidate → Nat) : PendingOrder :=
  if h : order.kind = .longestPrefixMatch then
    { kind := order.kind
      queue := refreshLoop live (keySum order.queue) order.queue
      ranked := by
        have hr := order.ranked
        rw [h] at hr ⊢
        exact refreshLoop_ranked live _ hr }
  else order

def peek (order : PendingOrder) : Option AdmissionCandidate :=
  order.queue.head?.map fun entry => entry.candidate

def pop (order : PendingOrder) : PendingOrder :=
  { order with queue := order.queue.tail, ranked := order.ranked.tail }

/-- Cancellation: arrival order drops the first entry of the request, a heap is
rebuilt without its entries. -/
def remove (order : PendingOrder) (request : RequestId) :
    Option AdmissionCandidate × PendingOrder :=
  ((order.queue.find? fun entry => entry.candidate.requestId = request).map
      fun entry => entry.candidate,
    if order.kind = .fifo then
      { order with
        queue := order.queue.eraseP fun entry => entry.candidate.requestId = request
        ranked := order.ranked.sublist List.eraseP_sublist }
    else
      { order with
        queue := order.queue.filter fun entry => entry.candidate.requestId ≠ request
        ranked := order.ranked.filter _ })

theorem candidates_insert (order : PendingOrder) (entry : QueueEntry) :
    (order.insert entry).candidates.Perm (entry.candidate :: order.candidates) :=
  (List.perm_orderedInsert _ _ _).map _

theorem candidates_push (order : PendingOrder) (candidate : AdmissionCandidate) :
    (order.push candidate).candidates.Perm (candidate :: order.candidates) := by
  unfold push
  split
  · simp only [candidates, List.map_append, List.map_cons, List.map_nil]
    exact List.perm_append_singleton _ _
  · exact order.candidates_insert _

theorem candidates_remove (order : PendingOrder) (r : RequestId)
    (h : (order.candidates.map fun c => c.requestId).Nodup) :
    (order.remove r).2.candidates = order.candidates.filter fun c => c.requestId ≠ r := by
  have hfilter : ∀ queue : List QueueEntry,
      ((queue.map fun entry => entry.candidate).map fun c => c.requestId).Nodup →
      (queue.eraseP fun entry => entry.candidate.requestId = r) =
        queue.filter fun entry => entry.candidate.requestId ≠ r := by
    intro queue hn
    induction queue with
    | nil => rfl
    | cons head rest ih =>
      simp only [List.map_cons, List.nodup_cons, List.map_map, List.mem_map,
        Function.comp_apply, not_exists, not_and] at hn
      by_cases hr : head.candidate.requestId = r
      · -- nothing behind the first match is of the same request
        have hrest : rest.filter (fun entry => !decide (entry.candidate.requestId = r)) = rest :=
          List.filter_eq_self.mpr fun entry he => by
            simpa [← hr] using hn.1 entry he
        simp [hr, hrest]
      · have htail := ih (by simpa using hn.2)
        simp only [ne_eq, decide_not] at htail
        simp [hr, htail]
  simp only [candidates, remove] at h ⊢
  split
  · dsimp only
    rw [hfilter order.queue h, List.filter_map]
    rfl
  · rw [List.filter_map]
    rfl

theorem rank_head_le (order : PendingOrder) {head : QueueEntry} (h : head ∈ order.queue.head?) :
    ∀ entry ∈ order.queue, Precedes order.kind head entry := by
  have hr := order.ranked
  cases hq : order.queue with
  | nil => simp
  | cons first rest =>
    rw [hq] at h hr
    cases Option.mem_some_iff.mp h
    intro entry he
    rcases List.mem_cons.mp he with rfl | he
    · exact .inr ⟨rfl, Nat.le_refl _⟩
    · exact List.rel_of_pairwise_cons hr he

theorem refreshHead_reconciled (order : PendingOrder) (live : AdmissionCandidate → Nat)
    (hkind : order.kind = .longestPrefixMatch) :
    ∀ head ∈ (order.refreshHead live).queue.head?,
      head.matchedPrefixTokens ≤ live head.candidate := by
  rw [refreshHead, dif_pos hkind]
  exact refreshLoop_reconciled live _ (Nat.le_refl _)

instance : PendingOrderPolicy PendingOrder where
  candidates := candidates
  push := push
  pushFront := pushFront
  refreshHead := refreshHead
  peek := peek
  pop := pop
  remove := remove
  push_perm := candidates_push
  pushFront_perm := fun order c => by
    unfold pushFront
    split
    · exact .refl _
    · exact order.candidates_push c
  refreshHead_perm := fun order live => by
    unfold refreshHead
    split
    · exact refreshLoop_perm live _ _
    · exact .refl _
  peek_eq_none_iff := fun order => by
    simp [peek, candidates]
  pop_perm := fun order c h => by
    obtain ⟨entry, he, rfl⟩ := Option.map_eq_some_iff.mp h
    obtain ⟨rest, hq⟩ := List.head?_eq_some_iff.mp he
    simp [candidates, pop, hq]
  remove_eq_none_iff := fun order r => by
    simp [remove, candidates]
  remove_perm := fun order r hnodup => (order.candidates_remove r hnodup).symm ▸ .refl _

end PendingOrder

end ServingSim
