import ServingSim.Admission.Policy

/-
  The head of the longest-prefix order (`longest_prefix_match`).

  An entry's stored prefix was measured when it was queued, and its resident prefix only
  shrinks from then on. The queue is ranked by the stored values; before a batch is formed
  only the head is measured again, and put back with the new value while that is lower.
  A head that keeps its place ranks before every other entry's stored value, and so before
  its live one.

  What is proved:
    1. `refresh_head_longest` — the head has the longest live prefix, the earliest arrival of
       those with as much, and no request is lost or doubled.
-/

namespace ServingSim

namespace PendingOrder

variable {live : AdmissionCandidate → Nat} {queue : List QueueEntry}

/-- No stored prefix is shorter than the live one. -/
def BoundsLive (live : AdmissionCandidate → Nat) (queue : List QueueEntry) : Prop :=
  ∀ entry ∈ queue, live entry.candidate ≤ entry.matchedPrefixTokens

theorem refreshLoop_bounds (fuel : Nat) (h : BoundsLive live queue) :
    BoundsLive live (refreshLoop live fuel queue) := by
  induction fuel generalizing queue with
  | zero => exact h
  | succ fuel ih =>
    cases queue with
    | nil => exact h
    | cons head rest =>
      unfold refreshLoop
      split
      · exact h
      · apply ih
        intro entry he
        rcases List.mem_cons.mp ((List.perm_orderedInsert _ _ rest).mem_iff.mp he) with rfl | he
        · exact Nat.le_refl _
        · exact h entry (List.mem_cons_of_mem head he)

theorem keySum_corrected {head : QueueEntry} {rest : List QueueEntry}
    (h : live head.candidate < head.matchedPrefixTokens) :
    keySum (rest.orderedInsert (Precedes .longestPrefixMatch)
        { head with matchedPrefixTokens := live head.candidate }) < keySum (head :: rest) := by
  have hperm := (List.perm_orderedInsert (Precedes .longestPrefixMatch)
    { head with matchedPrefixTokens := live head.candidate } rest).map
    fun entry => entry.matchedPrefixTokens
  rw [keySum, hperm.sum_eq]
  simp only [keySum, List.map_cons, List.sum_cons]
  omega

theorem refreshLoop_fuel {fuel : Nat} (h : keySum queue ≤ fuel) (more : Nat) :
    refreshLoop live (fuel + more) queue = refreshLoop live fuel queue := by
  induction fuel generalizing queue with
  | zero =>
    cases queue with
    | nil => cases more <;> rfl
    | cons head rest =>
      -- every stored value is zero, and no live one is below that
      have hzero : head.matchedPrefixTokens = 0 := by
        simp only [keySum, List.map_cons, List.sum_cons] at h
        omega
      cases more with
      | zero => rfl
      | succ more => simp [refreshLoop, hzero]
  | succ fuel ih =>
    cases queue with
    | nil => rw [Nat.add_right_comm, refreshLoop, refreshLoop]
    | cons head rest =>
      rw [Nat.add_right_comm]
      simp only [refreshLoop]
      split
      · rfl
      · next hstale =>
        apply ih
        have hlower := @keySum_corrected live head rest (Nat.not_le.mp hstale)
        omega

theorem head_longest {head entry : QueueEntry} (hbound : BoundsLive live queue)
    (hhead : head ∈ queue) (hentry : entry ∈ queue)
    (hfirst : Precedes .longestPrefixMatch head entry)
    (hexact : head.matchedPrefixTokens ≤ live head.candidate) :
    live entry.candidate < live head.candidate ∨ live entry.candidate = live head.candidate ∧
        head.candidate.enqueueSequence ≤ entry.candidate.enqueueSequence := by
  have hlow := hbound head hhead
  have hother := hbound entry hentry
  unfold Precedes QueueEntry.rank at hfirst
  dsimp only at hfirst
  omega

theorem queue_refreshHead (order : PendingOrder) (live : AdmissionCandidate → Nat)
    (h : order.kind = .longestPrefixMatch) :
    (order.refreshHead live).queue = refreshLoop live (keySum order.queue) order.queue := by
  rw [refreshHead, dif_pos h]

theorem kind_refreshHead (order : PendingOrder) (live : AdmissionCandidate → Nat) :
    (order.refreshHead live).kind = order.kind := by
  unfold refreshHead
  split <;> rfl

/-- Refreshing leaves at the head the request with the longest live prefix, the earliest of those
that arrived with as long a one; it keeps every pending request, and it ends. -/
theorem refresh_head_longest (order : PendingOrder) (live : AdmissionCandidate → Nat)
    (hkind : order.kind = .longestPrefixMatch) (hbound : BoundsLive live order.queue) :
    (∀ head ∈ (order.refreshHead live).peek, ∀ other ∈ order.candidates, live other < live head ∨
        live other = live head ∧ head.enqueueSequence ≤ other.enqueueSequence) ∧
    ((order.refreshHead live).peek = none ↔ order.candidates = []) ∧
    (order.refreshHead live).candidates.Perm order.candidates ∧
    ∀ more, refreshLoop live (keySum order.queue + more) order.queue =
      (order.refreshHead live).queue := by
  have hperm : (order.refreshHead live).candidates.Perm order.candidates :=
    PendingOrderPolicy.refreshHead_perm order live
  have hbounds : BoundsLive live (order.refreshHead live).queue := by
    rw [order.queue_refreshHead live hkind]
    exact refreshLoop_bounds _ hbound
  refine ⟨?_, ?_, hperm, ?_⟩
  · intro head hpeek other hother
    obtain ⟨first, hfirst, rfl⟩ := Option.map_eq_some_iff.mp hpeek
    obtain ⟨entry, hentry, rfl⟩ := List.mem_map.mp (hperm.mem_iff.mpr hother)
    have hrank := (order.refreshHead live).rank_head_le hfirst entry hentry
    rw [order.kind_refreshHead, hkind] at hrank
    exact head_longest hbounds (List.mem_of_mem_head? hfirst) hentry hrank
      (order.refreshHead_reconciled live hkind first hfirst)
  · rw [← List.perm_nil]
    have hnone : (order.refreshHead live).peek = none ↔ (order.refreshHead live).candidates = [] :=
      PendingOrderPolicy.peek_eq_none_iff (order.refreshHead live)
    rw [hnone, ← List.perm_nil]
    exact ⟨fun h => hperm.symm.trans h, fun h => hperm.trans h⟩
  · intro more
    rw [order.queue_refreshHead live hkind]
    exact refreshLoop_fuel (Nat.le_refl _) more

/-- A request of a session of its own that found `resident` tokens of its nine when queued. -/
def waitingCandidate (request resident : Nat) : AdmissionCandidate where
  requestId := request
  enqueueSequence := request
  freshPromptTokens := 16
  remainingOutputTokens := 8
  sessionInput := .session request 0 9
  conversationStartTime := 0
  residentPrefixTokens := resident
  retracted := false

def twoWaiting : PendingOrder :=
  ((new .longestPrefixMatch).push (waitingCandidate 1 9)).push (waitingCandidate 2 5)

/-- The first request's prefix is evicted while it waits, the second one's stays. -/
def firstEvicted (candidate : AdmissionCandidate) : Nat :=
  if candidate.requestId = 1 then 0 else 5

theorem refresh_head_longest_evicted :
    (twoWaiting.refreshHead firstEvicted).peek = some (waitingCandidate 2 5) ∧
      (firstEvicted (waitingCandidate 1 9) < firstEvicted (waitingCandidate 2 5) ∨
        firstEvicted (waitingCandidate 1 9) = firstEvicted (waitingCandidate 2 5) ∧
          (waitingCandidate 2 5).enqueueSequence ≤ (waitingCandidate 1 9).enqueueSequence) := by
  have hpeek : (twoWaiting.refreshHead firstEvicted).peek = some (waitingCandidate 2 5) := by
    decide
  have hbound : BoundsLive firstEvicted twoWaiting.queue := by
    unfold BoundsLive
    decide
  exact ⟨hpeek, (refresh_head_longest twoWaiting firstEvicted rfl hbound).1 _ hpeek _ (by decide)⟩

end PendingOrder

end ServingSim
