import ServingSim.Kv.Accounting

/-
  What a running request is charged, from its prompt to its last token.

  Admission reserves a footprint, and the store then charges the request what each step
  adds. The charge rounds blocks, entries and windows separately; it is still monotone in
  the context, so the growths of consecutive steps telescope and the footprint bounds them
  all. The checkpoints are soft: they can be evicted, so the footprint leaves them out.

  What is proved:
    1. `running_charge` — monotone, covered by the footprint, additive, without underflow.
    2. `checkpoints_beyond_footprint` — the checkpoints are not covered.
-/

namespace ServingSim

namespace KvAccounting

theorem growthOver_add (acc : KvAccounting) (len a b : Nat) :
    acc.growthOver len (a + b) = acc.growthOver len a + acc.growthOver (len + a) b := by
  have hwhole := acc.held_add_growth len (a + b)
  have hfirst := acc.held_add_growth len a
  have hrest := acc.held_add_growth (len + a) b
  rw [Nat.add_assoc] at hrest
  omega

theorem windowTokens_pos (acc : KvAccounting) {part : WindowCharge} (h : part ∈ acc.windows) :
    0 < part.windowTokens := by
  obtain ⟨p, hp, hcharge⟩ := List.mem_filterMap.mp h
  unfold windowCharge at hcharge
  split at hcharge
  · next w hgrowth =>
    cases hcharge
    exact (acc.layout_wellFormed.parts_wellFormed p hp).window_pos w hgrowth
  · cases hcharge

theorem perTokenUnits_le_entryCharge (acc : KvAccounting) (positions : ResumePositions) :
    acc.perTokenUnits positions.lastPosition ≤ acc.entryCharge positions := by
  unfold entryCharge
  split
  · exact le_refl _
  · rw [Nat.add_assoc]
    exact Nat.le_add_right _ _

/-- The running charge never falls with the context, stays within the footprint while the
request decodes, and grows additively; none of its differences is truncated. -/
theorem running_charge (acc : KvAccounting) (stepTokens len a b : Nat)
    {promptTokens outputTokens context : Nat} (h : context ≤ promptTokens + outputTokens) :
    Monotone (fun len => acc.heldWhileRunning len stepTokens) ∧
      acc.heldWhileRunning context 1 ≤ acc.footprint promptTokens outputTokens ∧
      acc.growthOver len (a + b) = acc.growthOver len a + acc.growthOver (len + a) b ∧
      acc.heldWhileRunning len 1 + acc.growthOver len a = acc.heldWhileRunning (len + a) 1 ∧
      (∀ part ∈ acc.windows, 0 < part.windowTokens) ∧
      ∀ positions : ResumePositions,
        acc.perTokenUnits positions.lastPosition ≤ acc.entryCharge positions := by
  exact ⟨acc.held_mono stepTokens, acc.held_le_footprint h, acc.growthOver_add len a b,
    acc.held_add_growth len a, fun part hpart => acc.windowTokens_pos hpart,
    acc.perTokenUnits_le_entryCharge⟩

/-- Four plain tokens of a two-token prompt, half way through its answer. -/
theorem running_charge_plain : (tokensForTest 8 (Nat.succ_pos 7)).heldWhileRunning 3 1 ≤
      (tokensForTest 8 (Nat.succ_pos 7)).footprint 2 2 :=
  have h : 3 ≤ 2 + 2 := by decide
  (running_charge (tokensForTest 8 (Nat.succ_pos 7)) 1 0 0 0 h).2.1

/-- A resumable state of one unit beside one unit a token, checkpointed at every token. -/
def recurrentLayout : KvCacheLayout where
  parts := [KvCachePart.perToken "kv" 1, KvCachePart.perRequest "state" 1]

theorem recurrentLayout_wellFormed : recurrentLayout.WellFormed :=
  (KvCacheLayout.validate_ok_iff _).mp rfl

theorem recurrentLayout_interval :
    ResumeIntervalFits recurrentLayout { overhead := .none, resumePoints := some .everyBlock } :=
  fun _ h => absurd h (Option.not_mem_none _)

def recurrentAccounting : KvAccounting where
  layout := recurrentLayout
  options := { overhead := .none, resumePoints := some .everyBlock }
  capacityUnits := 64
  layout_wellFormed := recurrentLayout_wellFormed
  interval_fits := recurrentLayout_interval
  capacity_pos := Nat.succ_pos _

/-- A four-token prompt with four tokens to decode reserves nine units; at its last token
it holds the nine, and seven more in checkpoints. -/
theorem checkpoints_beyond_footprint : recurrentAccounting.footprint 4 4 = 9 ∧
      recurrentAccounting.heldWhileRunning 8 1 + recurrentAccounting.checkpointUnits 4 8 = 16 ∧
      ¬ ∀ (acc : KvAccounting) (promptTokens outputTokens context : Nat),
        promptTokens ≤ context → context ≤ promptTokens + outputTokens →
        acc.heldWhileRunning context 1 + acc.checkpointUnits promptTokens context ≤
          acc.footprint promptTokens outputTokens := by
  have hfootprint : recurrentAccounting.footprint 4 4 = 9 := by decide +kernel
  have hcharge : recurrentAccounting.heldWhileRunning 8 1 +
      recurrentAccounting.checkpointUnits 4 8 = 16 := by decide +kernel
  refine ⟨hfootprint, hcharge, fun h => ?_⟩
  have hle := h recurrentAccounting 4 4 8 (by decide) (by decide)
  rw [hfootprint, hcharge] at hle
  exact absurd hle (by decide)

end KvAccounting

end ServingSim
