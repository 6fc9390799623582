import ServingSim.Admission.Moves

/-
  Where a prefill chunk may end (`checkpoint_aligned_chunk_tokens`).

  The state a chunk leaves behind can be checkpointed only on a block boundary, so a chunk
  that does not end the prefill is floored to one, unless a block is wider than any chunk.
  It then stops at the first of two places it would run past: the next boundary, when it
  starts inside a block, and the prompt's last checkpoint.

  What is proved:
    1. `checkpoint_aligned_postcondition` — where the chunk ends, and what it never passes.

  The source's `u32` product for the next boundary may wrap for contexts near 2^32; the
  boundary is then beyond every chunk, and the wrapped value is behind the start, so
  neither is a stop.
-/

namespace ServingSim

/-- The first of some stops that lie strictly ahead of `start` and before `reached`. -/
def firstStop (stops : List Nat) (start reached : Nat) : Nat :=
  ((stops.filter fun stop => start < stop ∧ stop < reached).min?).getD reached

theorem firstStop_spec (stops : List Nat) (start reached : Nat) :
    firstStop stops start reached ≤ reached ∧ (firstStop stops start reached = reached ∨
        firstStop stops start reached ∈ stops ∧ start < firstStop stops start reached) ∧
      ∀ stop ∈ stops, start < stop → firstStop stops start reached ≤ stop := by
  have hmem : ∀ stop, stop ∈ stops.filter (fun stop => start < stop ∧ stop < reached) ↔
      stop ∈ stops ∧ start < stop ∧ stop < reached := by
    intro stop
    simp
  unfold firstStop
  cases hmin : (stops.filter fun stop => start < stop ∧ stop < reached).min? with
  | none =>
    refine ⟨Nat.le_refl _, .inl rfl, ?_⟩
    intro stop hstop hlt
    show reached ≤ stop
    by_contra hahead
    rw [List.min?_eq_none_iff] at hmin
    have hin := (hmem stop).mpr ⟨hstop, hlt, Nat.not_le.mp hahead⟩
    rw [hmin] at hin
    cases hin
  | some first =>
    obtain ⟨hfirst, hleast⟩ := List.min?_eq_some_iff.mp hmin
    obtain ⟨hstop, hlt, hreached⟩ := (hmem first).mp hfirst
    refine ⟨Nat.le_of_lt hreached, .inr ⟨hstop, hlt⟩, ?_⟩
    intro stop hstop hlt
    show first ≤ stop
    by_cases hahead : stop < reached
    · exact hleast stop ((hmem stop).mpr ⟨hstop, hlt, hahead⟩)
    · omega

namespace ChunkEndAlignment

variable (alignment : ChunkEndAlignment)

/-- The prompt's last checkpoint. -/
def lastBoundary (prefillEnd : Nat) : Nat :=
  prefillEnd / alignment.quantum * alignment.quantum -
    if alignment.lastCheckpointOneBlockEarly then alignment.quantum else 0

/-- The boundary behind a position. -/
def nextBoundary (start : Nat) : Nat := (start / alignment.quantum + 1) * alignment.quantum

/-- What a chunk stops at instead of running past it. -/
def stops (start prefillEnd : Nat) : List Nat :=
  (if start % alignment.quantum ≠ 0 then [alignment.nextBoundary start] else []) ++
    [alignment.lastBoundary prefillEnd]

/-- How far a chunk gets before it is stopped: to a boundary, or on within a block wider than any
chunk. -/
def floored (start prefillEnd reached maxChunkTokens : Nat) : Nat :=
  if reached < prefillEnd ∧ (reached / alignment.quantum * alignment.quantum > start ∨
      alignment.quantum ≤ maxChunkTokens) then
    reached / alignment.quantum * alignment.quantum
  else reached

theorem dvd_lastBoundary (prefillEnd : Nat) :
    alignment.quantum ∣ alignment.lastBoundary prefillEnd := by
  apply Nat.dvd_sub (Nat.dvd_mul_left _ _)
  split
  · exact Nat.dvd_refl _
  · exact Nat.dvd_zero _

theorem dvd_of_mem_stops {start prefillEnd stop : Nat}
    (h : stop ∈ alignment.stops start prefillEnd) : alignment.quantum ∣ stop := by
  rcases List.mem_append.mp h with h | h
  · split at h
    · rw [List.mem_singleton.mp h]
      exact Nat.dvd_mul_left _ _
    · cases h
  · rw [List.mem_singleton.mp h]
    exact alignment.dvd_lastBoundary prefillEnd

end ChunkEndAlignment

theorem checkpointAligned_eq (start prefillEnd chunkTokens : Nat) (alignment : ChunkEndAlignment)
    (maxChunkTokens : Nat) :
    checkpointAlignedChunkTokens start prefillEnd chunkTokens alignment maxChunkTokens =
      if chunkTokens = 0 ∨ start ≥ prefillEnd then chunkTokens
      else firstStop (alignment.stops start prefillEnd) start
        (alignment.floored start prefillEnd (start + chunkTokens) maxChunkTokens) - start := rfl

/-- The end of a chunk that `budget` tokens can carry. -/
def chunkEnd (start prefillEnd budget : Nat) (alignment : ChunkEndAlignment)
    (maxChunkTokens : Nat) : Nat :=
  start + checkpointAlignedChunkTokens start prefillEnd (min (prefillEnd - start) budget) alignment
    maxChunkTokens

section postcondition

variable (start prefillEnd budget : Nat) (alignment : ChunkEndAlignment) (maxChunkTokens : Nat)

theorem chunkEnd_eq : chunkEnd start prefillEnd budget alignment maxChunkTokens = start ∨
      start < prefillEnd ∧ 0 < budget ∧
      chunkEnd start prefillEnd budget alignment maxChunkTokens =
        firstStop (alignment.stops start prefillEnd) start
          (alignment.floored start prefillEnd (min prefillEnd (start + budget)) maxChunkTokens) ∧
      start < chunkEnd start prefillEnd budget alignment maxChunkTokens := by
  unfold chunkEnd
  rw [checkpointAligned_eq]
  split
  · left
    omega
  · next hchunk =>
    have hreached : start + min (prefillEnd - start) budget = min prefillEnd (start + budget) := by
      omega
    rw [hreached]
    by_cases hahead : start < firstStop (alignment.stops start prefillEnd) start
        (alignment.floored start prefillEnd (min prefillEnd (start + budget)) maxChunkTokens)
    · right
      refine ⟨by omega, by omega, ?_, ?_⟩
      · omega
      · omega
    · left
      omega

/-- What is promised of the end of a chunk. -/
structure AlignedEnd (start prefillEnd budget : Nat) (alignment : ChunkEndAlignment)
    (maxChunkTokens stop : Nat) : Prop where
  /-- It is the start, the prefill's end, a boundary, or, where a block is wider than any chunk, a
  point up to which there is no boundary. -/
  lands : stop = start ∨ stop = prefillEnd ∨ alignment.quantum ∣ stop ∨
    maxChunkTokens < alignment.quantum ∧
      ∀ boundary, alignment.quantum ∣ boundary → start < boundary → stop < boundary
  within : start ≤ stop ∧ stop ≤ start + budget
  /-- From before the last checkpoint it does not pass it. -/
  last : start < alignment.lastBoundary prefillEnd → stop ≤ alignment.lastBoundary prefillEnd
  /-- From inside a block it does not pass the block's end. -/
  next : start % alignment.quantum ≠ 0 → stop ≤ alignment.nextBoundary start

theorem floored_le (reached : Nat) :
    alignment.floored start prefillEnd reached maxChunkTokens ≤ reached := by
  unfold ChunkEndAlignment.floored
  split
  · exact Nat.div_mul_le_self _ _
  · exact Nat.le_refl _

variable {start prefillEnd budget alignment maxChunkTokens}

theorem floored_lands {reached : Nat} (hreached : reached ≤ prefillEnd)
    (hquantum : 0 < alignment.quantum) :
    alignment.floored start prefillEnd reached maxChunkTokens = prefillEnd ∨
      alignment.quantum ∣ alignment.floored start prefillEnd reached maxChunkTokens ∨
      maxChunkTokens < alignment.quantum ∧
        ∀ boundary, alignment.quantum ∣ boundary → start < boundary → reached < boundary := by
  unfold ChunkEndAlignment.floored
  split
  · exact .inr (.inl (Nat.dvd_mul_left _ _))
  · next hfloor =>
    rcases Nat.lt_or_ge reached prefillEnd with hshort | hend
    · right
      right
      have hwide : ¬ (reached / alignment.quantum * alignment.quantum > start ∨
          alignment.quantum ≤ maxChunkTokens) := fun h => hfloor ⟨hshort, h⟩
      obtain ⟨hbehind, hcap⟩ := not_or.mp hwide
      refine ⟨Nat.not_le.mp hcap, ?_⟩
      intro boundary ⟨k, hk⟩ hlt
      -- the last boundary up to `reached` is no further than the start
      by_contra hin
      have hfloor : k ≤ reached / alignment.quantum := by
        rw [Nat.le_div_iff_mul_le hquantum, Nat.mul_comm, ← hk]
        exact Nat.not_lt.mp hin
      have hmul := Nat.mul_le_mul_right alignment.quantum hfloor
      rw [Nat.mul_comm, ← hk] at hmul
      omega
    · left
      omega

theorem start_lt_nextBoundary (hquantum : 0 < alignment.quantum) :
    start < alignment.nextBoundary start := by
  have hblock := Nat.lt_div_mul_add (a := start) hquantum
  rw [ChunkEndAlignment.nextBoundary, Nat.succ_mul]
  exact hblock

end postcondition

/-- Wherever the prefill stands and whatever the budget, the chunk's end is the start, the
prefill's end, a boundary, or a point inside a block wider than any chunk; it stays within the
budget, does not pass the last checkpoint from before it, nor a block's end from inside it. -/
theorem checkpoint_aligned_postcondition (start prefillEnd budget : Nat)
    (alignment : ChunkEndAlignment) (maxChunkTokens : Nat) (hquantum : 0 < alignment.quantum) :
    AlignedEnd start prefillEnd budget alignment maxChunkTokens
      (chunkEnd start prefillEnd budget alignment maxChunkTokens) := by
  rcases chunkEnd_eq start prefillEnd budget alignment maxChunkTokens with
    hnone | ⟨hstart, hbudget, hend, hahead⟩
  · rw [hnone]
    refine ⟨.inl rfl, ⟨Nat.le_refl _, Nat.le_add_right _ _⟩, Nat.le_of_lt, ?_⟩
    intro _
    exact Nat.le_of_lt (start_lt_nextBoundary hquantum)
  · obtain ⟨hle, hkind, hfirst⟩ := firstStop_spec (alignment.stops start prefillEnd) start
      (alignment.floored start prefillEnd (min prefillEnd (start + budget)) maxChunkTokens)
    have hreached := floored_le start prefillEnd alignment maxChunkTokens
      (min prefillEnd (start + budget))
    rw [← hend] at hle hkind hfirst
    refine ⟨?_, ⟨Nat.le_of_lt hahead, by omega⟩, ?_, ?_⟩
    · rcases hkind with hfloored | ⟨hstop, -⟩
      · rcases @floored_lands start prefillEnd alignment maxChunkTokens _
          (min_le_left prefillEnd (start + budget)) hquantum with
          hfinal | hdvd | ⟨hwide, hblock⟩
        · exact .inr (.inl (hfloored.trans hfinal))
        · exact .inr (.inr (.inl (hfloored ▸ hdvd)))
        · refine .inr (.inr (.inr ⟨hwide, ?_⟩))
          intro boundary hdvd hlt
          have hbeyond := hblock boundary hdvd hlt
          omega
      · exact .inr (.inr (.inl (alignment.dvd_of_mem_stops hstop)))
    · intro hlast
      apply hfirst _ _ hlast
      exact List.mem_append_right _ (List.mem_singleton_self _)
    · intro hinside
      apply hfirst _ _ (start_lt_nextBoundary hquantum)
      apply List.mem_append_left
      rw [if_pos hinside]
      exact List.mem_singleton_self _

/-- A prompt of forty thousand tokens in blocks of 2176. -/
theorem checkpoint_aligned_postcondition_first :
    AlignedEnd 0 40000 8192 ⟨2176, false⟩ 8192 (chunkEnd 0 40000 8192 ⟨2176, false⟩ 8192) :=
  checkpoint_aligned_postcondition 0 40000 8192 ⟨2176, false⟩ 8192 (by decide)

/-- As the engine's trace shows, that chunk takes three blocks. -/
example : chunkEnd 0 40000 8192 ⟨2176, false⟩ 8192 = 3 * 2176 := by decide

end ServingSim
