import Mathlib.Data.List.Destutter
import Mathlib.Data.List.ReduceOption
import ServingSim.Kv.Accounting

/-
  The soft charge a decoding request pays for its checkpoints.

  A running request keeps the tails and states of the resume positions it has passed. As
  it decodes, multiples of the resume interval are passed one after the other and stay
  passed, and so does the prompt end. The response end does not stay: it is the last block
  boundary, and moves on with every block.

  What is proved:
    1. `checkpointUnits_monotone_iff` — the charge never shrinks while decoding exactly
       where the response end is no resume point, or is never passed, or is a multiple of
       the interval anyway, or costs nothing.
    2. `checkpoint_shrinks` — elsewhere the difference a decode step takes underflows.
-/

namespace ServingSim

namespace ResumePositions

/-! ## The explicit positions -/

variable {points : List Nat}

theorem reduceOption_first_second (h : points.length ≤ 2) :
    [points.head?, points[1]?].reduceOption = points := by
  match points with
  | [] => rfl
  | [p] => rfl
  | [p, q] => rfl
  | p :: q :: r :: rest => simp at h

theorem destutter_two (h : points.length ≤ 2) :
    (points.destutter (· ≠ ·)).Nodup ∧ (points.destutter (· ≠ ·)).length ≤ 2 ∧
      ∀ point, point ∈ points.destutter (· ≠ ·) ↔ point ∈ points := by
  match points with
  | [] => simp
  | [p] => simp
  | [p, q] =>
    rw [List.destutter_pair]
    by_cases hpq : p = q
    · simp [hpq]
    · simp [hpq]
  | p :: q :: r :: rest => simp at h

/-- The explicit positions `ofExplicit` keeps: those within the context, in order, each once. -/
def keptPoints (explicit : Option Nat × Option Nat) (contextTokens : Nat) : List Nat :=
  (([explicit.1, explicit.2].reduceOption.filter
    fun point => 0 < point ∧ point ≤ contextTokens).insertionSort (· ≤ ·)).destutter (· ≠ ·)

theorem keptPoints_spec (explicit : Option Nat × Option Nat) (contextTokens : Nat) :
    (keptPoints explicit contextTokens).Nodup ∧ (keptPoints explicit contextTokens).length ≤ 2 ∧
      ∀ point, point ∈ keptPoints explicit contextTokens ↔
        (explicit.1 = some point ∨ explicit.2 = some point) ∧ 0 < point ∧
          point ≤ contextTokens := by
  have hsorted : (([explicit.1, explicit.2].reduceOption.filter
      fun point => 0 < point ∧ point ≤ contextTokens).insertionSort (· ≤ ·)).length ≤ 2 := by
    rw [List.length_insertionSort]
    exact (List.length_filter_le _ _).trans (List.reduceOption_length_le _)
  obtain ⟨hnodup, hlength, hmem⟩ := destutter_two hsorted
  refine ⟨hnodup, hlength, fun point => ?_⟩
  rw [keptPoints, hmem, List.mem_insertionSort, List.mem_filter, List.reduceOption_mem_iff]
  simp only [List.mem_cons, List.not_mem_nil, or_false, decide_eq_true_eq,
      eq_comm (a := some point)]

theorem explicitPoints_eq_kept (explicit : Option Nat × Option Nat) (every : Option Nat)
    (contextTokens : Nat) :
    (ofExplicit explicit every contextTokens).explicitPoints = keptPoints explicit contextTokens :=
  reduceOption_first_second (keptPoints_spec explicit contextTokens).2.1

theorem explicitPoints_ofExplicit (explicit : Option Nat × Option Nat) (every : Option Nat)
    (contextTokens : Nat) :
    (ofExplicit explicit every contextTokens).explicitPoints.Nodup ∧
      ∀ point, point ∈ (ofExplicit explicit every contextTokens).explicitPoints ↔
        (explicit.1 = some point ∨ explicit.2 = some point) ∧ 0 < point ∧
            point ≤ contextTokens := by
  obtain ⟨hnodup, -, hmem⟩ := keptPoints_spec explicit contextTokens
  rw [explicitPoints_eq_kept]
  exact ⟨hnodup, hmem⟩

/-! ## Positions that stay passed -/

/-- The explicit position is passed, and no series position. -/
def PassedOff (every : Option Nat) (point last : Nat) : Prop :=
  0 < point ∧ point ≤ last ∧ ∀ spacing ∈ every, point % spacing ≠ 0

instance (every : Option Nat) (point last : Nat) : Decidable (PassedOff every point last) :=
  inferInstanceAs (Decidable (_ ∧ _ ∧ ∀ spacing ∈ every, _))

/-- The positions passed by `last` when `point` is the one explicit position; 0 stands for
none. -/
structure Passed (every : Option Nat) (point last : Nat) (positions : ResumePositions) : Prop where
  sameSeries : positions.every = every
  series : ∀ spacing ∈ every, 0 < spacing ∧
    ∀ k, k * spacing ≤ positions.lastPosition ↔ k * spacing ≤ last
  off : positions.offSeries = if PassedOff every point last then [point] else []

/-- The series positions up to a length. -/
def seriesUpTo (every : Option Nat) (last : Nat) : Nat :=
  match every with
  | some spacing => last / spacing
  | none => 0

/-- The tail tokens before the positions up to a length. -/
def tailUpTo (every : Option Nat) (point last tail : Nat) : Nat :=
  match every with
  | none => if PassedOff none point last then gapCover tail 0 point else 0
  | some spacing =>
    let gapStart := point / spacing * spacing
    let gapEnd := gapStart + spacing
    if PassedOff (some spacing) point last then
      if gapEnd ≤ last then
        last / spacing * min spacing tail - min spacing tail +
          (gapCover tail gapStart point + gapCover tail point gapEnd)
      else last / spacing * min spacing tail + gapCover tail gapStart point
    else last / spacing * min spacing tail

section passed

variable {every : Option Nat} {point last last' : Nat} {positions : ResumePositions}

theorem Passed.seriesCount (h : Passed every point last positions) :
    positions.seriesCount = seriesUpTo every last := by
  unfold ResumePositions.seriesCount seriesUpTo
  rw [h.sameSeries]
  cases every with
  | none => rfl
  | some spacing =>
    obtain ⟨hpos, hseries⟩ := h.series spacing rfl
    refine Nat.le_antisymm ?_ ?_
    · exact (Nat.le_div_iff_mul_le hpos).mpr ((hseries _).mp (Nat.div_mul_le_self _ _))
    · exact (Nat.le_div_iff_mul_le hpos).mpr ((hseries _).mpr (Nat.div_mul_le_self _ _))

theorem Passed.count (h : Passed every point last positions) :
    positions.count = seriesUpTo every last + if PassedOff every point last then 1 else 0 := by
  rw [ResumePositions.count, h.seriesCount, h.off]
  split <;> rfl

theorem Passed.windowTailUnion (h : Passed every point last positions) (tail : Nat) :
    positions.windowTailUnion tail = tailUpTo every point last tail := by
  have hcount := h.seriesCount
  unfold ResumePositions.windowTailUnion tailUpTo
  rw [h.sameSeries, h.off, hcount]
  cases every with
  | none =>
    dsimp only
    split
    · exact Nat.zero_add _
    · rfl
  | some spacing =>
    obtain ⟨hpos, hseries⟩ := h.series spacing rfl
    dsimp only [seriesUpTo]
    split
    · have hgap : point < point / spacing * spacing + spacing := by
        have hdiv := Nat.div_add_mod point spacing
        have hmod := Nat.mod_lt point hpos
        have hcomm := Nat.mul_comm spacing (point / spacing)
        omega
      have hclosed : point / spacing * spacing + spacing ≤ positions.lastPosition ↔
          point / spacing * spacing + spacing ≤ last := by
        have hnext := hseries (point / spacing + 1)
        rwa [Nat.add_mul, Nat.one_mul] at hnext
      simp [coverSplits, splitGap, hgap, hclosed]
    · simp [coverSplits]

theorem gapCover_le_split (tail : Nat) {a b c : Nat} (h : a ≤ b) (h' : b ≤ c) :
    min (c - a) tail ≤ gapCover tail a b + gapCover tail b c := by
  unfold gapCover
  omega

theorem count_le_of_passed (h : last ≤ last') :
    (seriesUpTo every last + if PassedOff every point last then 1 else 0) ≤
      seriesUpTo every last' + if PassedOff every point last' then 1 else 0 := by
  have hseries : seriesUpTo every last ≤ seriesUpTo every last' := by
    unfold seriesUpTo
    cases every with
    | none => exact Nat.le_refl _
    | some spacing => exact Nat.div_le_div_right h
  have hoff : PassedOff every point last → PassedOff every point last' :=
    fun hoff => ⟨hoff.1, hoff.2.1.trans h, hoff.2.2⟩
  split
  · next hpassed =>
    rw [if_pos (hoff hpassed)]
    exact Nat.add_le_add_right hseries 1
  · exact Nat.le_add_right_of_le hseries

theorem tailUpTo_le (tail : Nat) (hpos : ∀ spacing ∈ every, 0 < spacing) (h : last ≤ last') :
    tailUpTo every point last tail ≤ tailUpTo every point last' tail := by
  have hoff : PassedOff every point last → PassedOff every point last' :=
    fun hoff => ⟨hoff.1, hoff.2.1.trans h, hoff.2.2⟩
  cases every with
  | none =>
    dsimp only [tailUpTo]
    split
    · next hpassed => rw [if_pos (hoff hpassed)]
    · exact Nat.zero_le _
  | some spacing =>
    have hpos := hpos spacing rfl
    obtain ⟨gapStart, hstart⟩ : ∃ gapStart, gapStart = point / spacing * spacing := ⟨_, rfl⟩
    have hgap : gapStart ≤ point ∧ point < gapStart + spacing := by
      have hdiv := Nat.div_add_mod point spacing
      have hmod := Nat.mod_lt point hpos
      have hcomm := Nat.mul_comm spacing (point / spacing)
      omega
    have hsplit := gapCover_le_split tail hgap.1 (Nat.le_of_lt hgap.2)
    rw [Nat.add_sub_cancel_left] at hsplit
    have hseries : last / spacing * min spacing tail ≤ last' / spacing * min spacing tail :=
      Nat.mul_le_mul_right _ (Nat.div_le_div_right h)
    -- once the gap around the point is closed, the series has one more position than before
    have hclosed : gapStart + spacing ≤ last' →
        point / spacing * min spacing tail + min spacing tail ≤
          last' / spacing * min spacing tail := by
      intro hle
      rw [← Nat.succ_mul]
      refine Nat.mul_le_mul_right _ ((Nat.le_div_iff_mul_le hpos).mpr ?_)
      rw [Nat.succ_mul, ← hstart]
      exact hle
    dsimp only [tailUpTo]
    rw [← hstart]
    by_cases hpassed : PassedOff (some spacing) point last
    · rw [if_pos hpassed, if_pos (hoff hpassed)]
      by_cases hdone : gapStart + spacing ≤ last
      · rw [if_pos hdone, if_pos (hdone.trans h)]
        omega
      · rw [if_neg hdone]
        have hsame : last / spacing = point / spacing := by
          refine Nat.le_antisymm (Nat.le_of_lt_succ ?_) (Nat.div_le_div_right hpassed.2.1)
          rw [Nat.div_lt_iff_lt_mul hpos, Nat.succ_mul, ← hstart]
          exact Nat.lt_of_not_le hdone
        split
        · next hdone' =>
          have hmore := hclosed hdone'
          rw [hsame]
          omega
        · exact Nat.add_le_add_right hseries _
    · rw [if_neg hpassed]
      split
      · split
        · next hdone' =>
          have hmore := hclosed hdone'
          omega
        · exact Nat.le_add_right_of_le hseries
      · exact hseries

end passed

/-! ## Positions cut behind the last token -/

theorem eq_singleton_or_nil {point : Nat} {P : Prop} [Decidable P]
    (hnodup : points.Nodup) (h : ∀ p, p ∈ points ↔ p = point ∧ P) :
    points = if P then [point] else [] := by
  split
  · next hP =>
    have hperm : points.Perm [point] := by
      refine (List.perm_ext_iff_of_nodup hnodup (List.nodup_singleton point)).mpr fun p => ?_
      rw [h, List.mem_singleton]
      exact and_iff_left hP
    exact List.perm_singleton.mp hperm
  · next hP => exact List.eq_nil_iff_forall_not_mem.mpr fun p hp => hP ((h p).mp hp).2

theorem explicitPoints_truncated (positions : ResumePositions) (last : Nat) :
    (positions.truncated last).explicitPoints =
      positions.explicitPoints.filter fun point => point ≤ last := by
  unfold explicitPoints truncated
  obtain ⟨first, second⟩ := positions.explicit
  cases first <;> cases second <;> simp [List.reduceOption, Option.filter, List.filter_cons] <;>
    (repeat' split) <;> simp_all

theorem passed_ofExplicit {explicit : Option Nat × Option Nat} {every : Option Nat}
    {len point : Nat} (hpos : ∀ spacing ∈ every, 0 < spacing)
    (hoff : ∀ p, (explicit.1 = some p ∨ explicit.2 = some p) ∧ PassedOff every p (len - 1) ↔
      p = point ∧ PassedOff every point (len - 1)) :
    Passed every point (len - 1) ((ofExplicit explicit every len).truncated (len - 1)) := by
  obtain ⟨hnodup, hmem⟩ := explicitPoints_ofExplicit explicit every len
  have hexplicit := explicitPoints_truncated (ofExplicit explicit every len) (len - 1)
  refine ⟨rfl, fun spacing hspacing => ⟨hpos spacing hspacing, fun k => ?_⟩, ?_⟩
  · -- a multiple within the context is within its last series position
    obtain rfl : every = some spacing := hspacing
    have hseries : k * spacing ≤ len - 1 →
        k * spacing ≤ (ofExplicit explicit (some spacing) len).lastPosition := by
      intro hk
      have hle : k ≤ len / spacing :=
        (Nat.le_div_iff_mul_le (hpos spacing rfl)).mpr (hk.trans (Nat.sub_le len 1))
      exact (Nat.mul_le_mul_right spacing hle).trans (Nat.le_max_right _ _)
    have hlast : ((ofExplicit explicit (some spacing) len).truncated (len - 1)).lastPosition =
        min (len - 1) (ofExplicit explicit (some spacing) len).lastPosition := rfl
    rw [hlast, Nat.le_min]
    exact ⟨fun h => h.1, fun h => ⟨h, hseries h⟩⟩
  · refine eq_singleton_or_nil ((hexplicit ▸ hnodup.filter _).filter _) fun p => ?_
    rw [← hoff p, offSeries, List.mem_filter, hexplicit, List.mem_filter, hmem]
    have hon : (!((ofExplicit explicit every len).truncated (len - 1)).onSeries p) = true ↔
        ∀ spacing ∈ every, p % spacing ≠ 0 := by
      unfold onSeries
      cases every with
      | none => simp [truncated, ofExplicit]
      | some spacing => simp [truncated, ofExplicit]
    rw [hon, decide_eq_true_eq]
    constructor
    · intro ⟨⟨⟨heq, hp, _⟩, hlast⟩, hne⟩
      exact ⟨heq, hp, hlast, hne⟩
    · intro ⟨heq, hp, hlast, hne⟩
      exact ⟨⟨⟨heq, hp, hlast.trans (Nat.sub_le len 1)⟩, hlast⟩, hne⟩

theorem gapCover_zero (a b : Nat) : gapCover 0 a b = 0 := Nat.min_zero _

theorem splitGap_zero (gapEnd split previous : Nat) (points : List Nat) :
    (splitGap 0 gapEnd split previous points).1 = split := by
  induction points generalizing split previous with
  | nil => rfl
  | cons point rest ih =>
    unfold splitGap
    split
    · rw [ih, gapCover_zero, Nat.add_zero]
    · rfl

theorem coverSplits_zero (spacing last fuel covered : Nat) (points : List Nat) :
    coverSplits 0 spacing last fuel covered points = covered := by
  induction fuel generalizing covered points with
  | zero => rfl
  | succ fuel ih =>
    cases points with
    | nil => rfl
    | cons point rest =>
      have hsplit := splitGap_zero (point / spacing * spacing + spacing) 0
        (point / spacing * spacing) (point :: rest)
      simp only [coverSplits, hsplit, gapCover_zero, Nat.min_zero, Nat.add_zero, Nat.sub_zero, ih,
        ite_self]

theorem windowTailUnion_zero (positions : ResumePositions) : positions.windowTailUnion 0 = 0 := by
  unfold windowTailUnion
  split
  · apply List.foldlRecOn (motive := fun walked : Nat × Nat => walked.2 = 0)
    · rfl
    · intro walked hcovered point _
      obtain ⟨previous, covered⟩ := walked
      obtain rfl : covered = 0 := hcovered
      show 0 + gapCover 0 previous point = 0
      rw [gapCover_zero, Nat.add_zero]
  · rw [coverSplits_zero, Nat.min_zero, Nat.mul_zero]

end ResumePositions

namespace KvAccounting

open ResumePositions

variable (acc : KvAccounting)

/-- The tails and states an entry is charged beside its tokens. -/
def softCharge (positions : ResumePositions) : Nat :=
  ((acc.windows.filter fun part => part.prefixReusable).map fun part =>
      part.unitsPerToken * positions.windowTailUnion (part.windowTokens - 1)).sum +
    acc.reusableStateUnits * positions.count

theorem checkpointUnits_eq (promptTokens len : Nat) : acc.checkpointUnits promptTokens len =
      if acc.sparse = false ∨ len = 0 then 0
      else acc.softCharge ((acc.resumePositions promptTokens len).truncated (len - 1)) := by
  unfold checkpointUnits
  by_cases h : acc.sparse = false ∨ len = 0
  · rw [if_pos h, if_pos (by simpa using h)]
  · have hsparse : acc.sparse = true := Bool.of_not_eq_false fun hn => h (.inl hn)
    rw [if_neg h, if_neg (by simpa using h)]
    simp only [entryCharge, hsparse, Bool.not_true, Bool.false_eq_true, if_false, softCharge]
    omega

theorem softCharge_le {every : Option Nat} {point last last' : Nat}
    {positions positions' : ResumePositions} (h : Passed every point last positions)
    (h' : Passed every point last' positions') (hle : last ≤ last') :
    acc.softCharge positions ≤ acc.softCharge positions' := by
  refine Nat.add_le_add (List.sum_le_sum fun part _ => Nat.mul_le_mul_left _ ?_)
    (Nat.mul_le_mul_left _ ?_)
  · rw [h.windowTailUnion, h'.windowTailUnion]
    exact tailUpTo_le _ (fun spacing hspacing => (h.series spacing hspacing).1) hle
  · rw [h.count, h'.count]
    exact count_le_of_passed hle

/-! ## The positions of a running request -/

/-- The prompt's last whole block, without the token the engine recomputes. -/
def promptEnd (promptTokens : Nat) : Nat :=
  (match acc.overhead with
    | .vllm => promptTokens - 1
    | .none => promptTokens) / acc.blockTokens * acc.blockTokens

def responseEnd (len : Nat) : Nat := len / acc.blockTokens * acc.blockTokens

def explicitOf (promptTokens len : Nat) : Option Nat × Option Nat :=
  match acc.resumePoints with
  | .promptEnd => (some (acc.promptEnd promptTokens), none)
  | .responseEnd => (some (acc.responseEnd len), none)
  | .promptAndResponseEnd => (some (acc.promptEnd promptTokens), some (acc.responseEnd len))
  | .everyBlock => (none, none)

def everyOf : Option Nat :=
  match acc.resumePoints with
  | .everyBlock => some acc.blockTokens
  | _ => acc.options.resumeInterval

theorem resumePositions_eq (hsparse : acc.sparse = true) (promptTokens len : Nat) :
    acc.resumePositions promptTokens len =
      .ofExplicit (acc.explicitOf promptTokens len) acc.everyOf len := by
  simp only [resumePositions, hsparse, Bool.not_true, Bool.false_eq_true, if_false, explicitOf,
    everyOf, promptEnd, responseEnd]
  cases acc.resumePoints <;> rfl

theorem everyOf_pos : ∀ spacing ∈ acc.everyOf, 0 < spacing := by
  intro spacing hspacing
  unfold everyOf at hspacing
  split at hspacing
  · obtain rfl := Option.mem_some_iff.mp hspacing
    exact acc.blockTokens_pos
  · exact (acc.interval_fits spacing hspacing).1

/-- The explicit position a decode passes for good, 0 for none. -/
def stayingPoint (promptTokens : Nat) : Nat :=
  match acc.resumePoints with
  | .promptEnd | .promptAndResponseEnd => acc.promptEnd promptTokens
  | .responseEnd | .everyBlock => 0

theorem not_passedOff_zero (every : Option Nat) (last : Nat) : ¬ PassedOff every 0 last :=
  fun h => absurd h.1 (Nat.lt_irrefl 0)

theorem passed_of_responseEnd (hsparse : acc.sparse = true) (promptTokens len : Nat)
    (h : acc.resumePoints = .responseEnd ∨ acc.resumePoints = .promptAndResponseEnd →
      ¬ PassedOff acc.everyOf (acc.responseEnd len) (len - 1)) :
    Passed acc.everyOf (acc.stayingPoint promptTokens) (len - 1)
      ((acc.resumePositions promptTokens len).truncated (len - 1)) := by
  rw [acc.resumePositions_eq hsparse]
  refine passed_ofExplicit acc.everyOf_pos fun p => ?_
  cases hpoints : acc.resumePoints with
  | promptEnd =>
    simp only [explicitOf, stayingPoint, hpoints, Option.some.injEq, reduceCtorEq, or_false]
    exact ⟨fun ⟨heq, hp⟩ => ⟨heq.symm, heq ▸ hp⟩, fun ⟨heq, hp⟩ => ⟨heq.symm, heq ▸ hp⟩⟩
  | responseEnd =>
    have hend := h (.inl hpoints)
    simp only [explicitOf, stayingPoint, hpoints, Option.some.injEq, reduceCtorEq, or_false]
    exact ⟨fun ⟨heq, hp⟩ => absurd (heq ▸ hp) hend,
      fun ⟨_, hp⟩ => absurd hp (not_passedOff_zero _ _)⟩
  | promptAndResponseEnd =>
    have hend := h (.inr hpoints)
    simp only [explicitOf, stayingPoint, hpoints, Option.some.injEq]
    constructor
    · intro ⟨heq, hp⟩
      obtain heq | heq := heq
      · exact ⟨heq.symm, heq ▸ hp⟩
      · exact absurd (heq ▸ hp) hend
    · intro ⟨heq, hp⟩
      exact ⟨.inl heq.symm, heq ▸ hp⟩
  | everyBlock =>
    simp only [explicitOf, stayingPoint, hpoints, reduceCtorEq, or_false, false_and, false_iff]
    exact fun ⟨_, hp⟩ => not_passedOff_zero _ _ hp

/-! ## Where the charge shrinks -/

/-- Some position costs units beside its tokens. -/
def ChargesCheckpoints : Prop :=
  0 < acc.reusableStateUnits ∨
    ∃ part ∈ acc.windows, part.prefixReusable = true ∧ 1 < part.windowTokens ∧
        0 < part.unitsPerToken

/-- The response end is a resume point that a decode passes and leaves behind. -/
def MovingResponseEnd : Prop :=
  (acc.resumePoints = .responseEnd ∨ acc.resumePoints = .promptAndResponseEnd) ∧
    acc.blockTokens ≠ 1 ∧ acc.options.resumeInterval ≠ some acc.blockTokens ∧ acc.ChargesCheckpoints

variable {acc}

theorem softCharge_eq_zero (h : ¬ acc.ChargesCheckpoints) (positions : ResumePositions) :
    acc.softCharge positions = 0 := by
  obtain ⟨hstate, hwindow⟩ := not_or.mp h
  have hwindows : ((acc.windows.filter fun part => part.prefixReusable).map fun part =>
      part.unitsPerToken * positions.windowTailUnion (part.windowTokens - 1)).sum = 0 := by
    refine List.sum_eq_zero fun units hunits => ?_
    obtain ⟨part, hpart, rfl⟩ := List.mem_map.mp hunits
    obtain ⟨hmem, hreusable⟩ := List.mem_filter.mp hpart
    by_cases htail : 1 < part.windowTokens
    · by_cases hpos : 0 < part.unitsPerToken
      · exact absurd ⟨part, hmem, hreusable, htail, hpos⟩ hwindow
      · rw [Nat.eq_zero_of_not_pos hpos, Nat.zero_mul]
    · rw [show part.windowTokens - 1 = 0 by omega, windowTailUnion_zero, Nat.mul_zero]
  rw [softCharge, hwindows, Nat.eq_zero_of_not_pos hstate, Nat.zero_mul]

theorem ChargesCheckpoints.sparse (h : acc.ChargesCheckpoints) : acc.sparse = true := by
  obtain hstate | ⟨part, hmem, hreusable, -⟩ := h
  · simp [KvAccounting.sparse, hstate]
  · have hany : (acc.windows.any fun part => part.prefixReusable) = true :=
      List.any_eq_true.mpr ⟨part, hmem, hreusable⟩
    simp [KvAccounting.sparse, hany]

theorem not_passedOff_responseEnd {len : Nat} (hlen : 0 < len)
    (hpoints : acc.resumePoints = .responseEnd ∨ acc.resumePoints = .promptAndResponseEnd)
    (h : acc.blockTokens = 1 ∨ acc.options.resumeInterval = some acc.blockTokens) :
    ¬ PassedOff acc.everyOf (acc.responseEnd len) (len - 1) := by
  intro ⟨_, hlast, hoff⟩
  obtain hblock | hinterval := h
  · rw [responseEnd, hblock, Nat.div_one, Nat.mul_one] at hlast
    omega
  · have hevery : acc.everyOf = some acc.blockTokens := by
      obtain hpoints | hpoints := hpoints <;> simp only [everyOf, hpoints, hinterval]
    exact hoff _ hevery (Nat.mul_mod_left _ _)

theorem checkpointUnits_le (h : ¬ acc.MovingResponseEnd) (promptTokens : Nat) {len len' : Nat}
    (hle : len ≤ len') :
    acc.checkpointUnits promptTokens len ≤ acc.checkpointUnits promptTokens len' := by
  rw [checkpointUnits_eq, checkpointUnits_eq]
  by_cases hnone : acc.sparse = false ∨ len = 0
  · rw [if_pos hnone]
    exact Nat.zero_le _
  · obtain ⟨hsparse, hlen⟩ := not_or.mp hnone
    have hsparse : acc.sparse = true := Bool.of_not_eq_false hsparse
    rw [if_neg hnone, if_neg (by simp [hsparse]; omega)]
    by_cases hcharges : acc.ChargesCheckpoints
    · have hstays : ∀ l, 0 < l →
          acc.resumePoints = .responseEnd ∨ acc.resumePoints = .promptAndResponseEnd →
          ¬ PassedOff acc.everyOf (acc.responseEnd l) (l - 1) := by
        intro l hl hpoints
        refine not_passedOff_responseEnd hl hpoints ?_
        by_contra hneither
        obtain ⟨hblock, hinterval⟩ := not_or.mp hneither
        exact h ⟨hpoints, hblock, hinterval, hcharges⟩
      exact acc.softCharge_le
        (acc.passed_of_responseEnd hsparse promptTokens len (hstays len (by omega)))
        (acc.passed_of_responseEnd hsparse promptTokens len' (hstays len' (by omega)))
        (Nat.sub_le_sub_right hle 1)
    · rw [softCharge_eq_zero hcharges, softCharge_eq_zero hcharges]

/-! ### The step into the second block -/

section moving

variable (h : acc.MovingResponseEnd)

include h

theorem MovingResponseEnd.block : 2 ≤ acc.blockTokens := by
  have hpos := acc.blockTokens_pos
  have hne := h.2.1
  omega

theorem MovingResponseEnd.everyOf_eq : acc.everyOf = acc.options.resumeInterval := by
  obtain hpoints | hpoints := h.1 <;> simp only [everyOf, hpoints]

theorem MovingResponseEnd.spacing : ∀ spacing ∈ acc.everyOf, 2 * acc.blockTokens ≤ spacing := by
  intro spacing hspacing
  rw [h.everyOf_eq] at hspacing
  obtain ⟨hpos, hmod⟩ := acc.interval_fits spacing hspacing
  obtain ⟨k, rfl⟩ := Nat.dvd_of_mod_eq_zero hmod
  have hone : k ≠ 1 := by
    intro hk
    rw [hk, Nat.mul_one] at hspacing
    exact h.2.2.1 hspacing
  have hzero : k ≠ 0 := by
    intro hk
    rw [hk] at hpos
    exact absurd hpos (Nat.lt_irrefl 0)
  calc 2 * acc.blockTokens ≤ k * acc.blockTokens := Nat.mul_le_mul_right _ (by omega)
    _ = acc.blockTokens * k := Nat.mul_comm _ _

theorem MovingResponseEnd.promptEnd_one : acc.promptEnd 1 = 0 := by
  have hblock := h.2.1
  unfold promptEnd
  cases hoverhead : acc.overhead with
  | vllm => simp
  | none =>
    rw [blockTokens, hoverhead] at hblock
    exact absurd rfl hblock

theorem MovingResponseEnd.stayingPoint_one : acc.stayingPoint 1 = 0 := by
  obtain hpoints | hpoints := h.1
  · simp only [stayingPoint, hpoints]
  · simp only [stayingPoint, hpoints, h.promptEnd_one]

theorem MovingResponseEnd.passed_first :
    PassedOff acc.everyOf acc.blockTokens (2 * acc.blockTokens - 2) ∧
      Passed acc.everyOf acc.blockTokens (2 * acc.blockTokens - 2)
        ((acc.resumePositions 1 (2 * acc.blockTokens - 1)).truncated
          (2 * acc.blockTokens - 1 - 1)) := by
  have hblock := h.block
  have hend : acc.responseEnd (2 * acc.blockTokens - 1) = acc.blockTokens := by
    have hdiv : (2 * acc.blockTokens - 1) / acc.blockTokens = 1 :=
      Nat.div_eq_of_lt_le (by omega) (by omega)
    rw [responseEnd, hdiv, Nat.one_mul]
  have hoff : PassedOff acc.everyOf acc.blockTokens (2 * acc.blockTokens - 2) := by
    refine ⟨by omega, by omega, fun spacing hspacing => ?_⟩
    have hlarge := h.spacing spacing hspacing
    rw [Nat.mod_eq_of_lt (by omega)]
    omega
  refine ⟨hoff, ?_⟩
  rw [acc.resumePositions_eq h.2.2.2.sparse]
  refine passed_ofExplicit acc.everyOf_pos fun p => ?_
  obtain hpoints | hpoints := h.1
  · simp only [explicitOf, hpoints, hend, Option.some.injEq, reduceCtorEq, or_false]
    exact ⟨fun ⟨heq, hp⟩ => ⟨heq.symm, heq ▸ hp⟩, fun ⟨heq, hp⟩ => ⟨heq.symm, heq ▸ hp⟩⟩
  · simp only [explicitOf, hpoints, hend, h.promptEnd_one, Option.some.injEq]
    constructor
    · intro ⟨heq, hp⟩
      obtain heq | heq := heq
      · subst heq
        exact absurd hp (not_passedOff_zero _ _)
      · exact ⟨heq.symm, heq ▸ hp⟩
    · intro ⟨heq, hp⟩
      exact ⟨.inr heq.symm, heq ▸ hp⟩

theorem MovingResponseEnd.checkpointUnits_second :
    acc.checkpointUnits 1 (2 * acc.blockTokens) = 0 := by
  have hblock := h.block
  have hsparse := h.2.2.2.sparse
  have hnot : ¬ PassedOff acc.everyOf (acc.responseEnd (2 * acc.blockTokens))
      (2 * acc.blockTokens - 1) := by
    intro ⟨_, hlast, _⟩
    rw [responseEnd, Nat.mul_div_cancel _ acc.blockTokens_pos] at hlast
    omega
  have hpassed := acc.passed_of_responseEnd hsparse 1 (2 * acc.blockTokens) fun _ => hnot
  rw [h.stayingPoint_one] at hpassed
  have hseries : seriesUpTo acc.everyOf (2 * acc.blockTokens - 1) = 0 := by
    unfold seriesUpTo
    split
    · next spacing hspacing =>
      have hlarge := h.spacing spacing hspacing
      exact Nat.div_eq_of_lt (by omega)
    · rfl
  rw [checkpointUnits_eq, if_neg (by simp [hsparse]; omega), softCharge, hpassed.count, hseries,
    if_neg (not_passedOff_zero _ _), Nat.mul_zero, Nat.add_zero]
  refine List.sum_eq_zero fun units hunits => ?_
  obtain ⟨part, -, rfl⟩ := List.mem_map.mp hunits
  have htail : tailUpTo acc.everyOf 0 (2 * acc.blockTokens - 1) (part.windowTokens - 1) = 0 := by
    unfold seriesUpTo at hseries
    unfold tailUpTo
    split
    · rw [if_neg (not_passedOff_zero _ _)]
    · next spacing hspacing =>
      rw [hspacing] at hseries
      have hnone : (2 * acc.blockTokens - 1) / spacing = 0 := hseries
      rw [if_neg (not_passedOff_zero _ _), hnone, Nat.zero_mul]
  rw [hpassed.windowTailUnion, htail, Nat.mul_zero]

theorem MovingResponseEnd.checkpointUnits_first :
    0 < acc.checkpointUnits 1 (2 * acc.blockTokens - 1) := by
  have hblock := h.block
  obtain ⟨hoff, hpassed⟩ := h.passed_first
  rw [checkpointUnits_eq, if_neg (by simp [h.2.2.2.sparse]; omega), softCharge, hpassed.count,
    if_pos hoff]
  obtain hstate | ⟨part, hmem, hreusable, htokens, hunits⟩ := h.2.2.2
  · exact Nat.add_pos_right _ (Nat.mul_pos hstate (Nat.succ_pos _))
  · refine Nat.add_pos_left (Nat.lt_of_lt_of_le ?_ (List.single_le_sum (fun _ _ => Nat.zero_le _) _
      (List.mem_map_of_mem (List.mem_filter.mpr ⟨hmem, hreusable⟩)))) _
    refine Nat.mul_pos hunits ?_
    rw [hpassed.windowTailUnion]
    -- the first block's end lies in the first gap of the series, which is still open
    have hspacing := h.spacing
    unfold tailUpTo
    split
    · next hevery =>
      rw [hevery] at hoff
      rw [if_pos hoff, gapCover]
      omega
    · next spacing hevery =>
      have hlarge := hspacing spacing hevery
      rw [hevery] at hoff
      have hzero : acc.blockTokens / spacing = 0 := Nat.div_eq_of_lt (by omega)
      simp only [if_pos hoff, hzero, Nat.zero_mul, Nat.zero_add]
      rw [if_neg (by omega), gapCover]
      omega

end moving

/-- The charge never shrinks while decoding, exactly where no response end is passed and
left behind. -/
theorem checkpointUnits_monotone_iff (acc : KvAccounting) :
    (∀ promptTokens len len', promptTokens ≤ len → len ≤ len' →
      acc.checkpointUnits promptTokens len ≤ acc.checkpointUnits promptTokens len') ↔
    ¬ acc.MovingResponseEnd := by
  constructor
  · intro hmono h
    have hblock := h.block
    have hle := hmono 1 (2 * acc.blockTokens - 1) (2 * acc.blockTokens) (by omega) (by omega)
    rw [h.checkpointUnits_second] at hle
    exact absurd h.checkpointUnits_first (Nat.not_lt.mpr hle)
  · intro h promptTokens len len' _ hle
    exact checkpointUnits_le h promptTokens hle

/-- One byte for each token and a resumable state of ten, in blocks of 16 tokens. -/
def blockedLayout : KvCacheLayout where
  parts := [KvCachePart.perToken "kv" 1, KvCachePart.perRequest "state" 10]
  engine := { blockTokens := some 16 }

/-- The engine's charges, resumed at the response end. -/
def responseEndAccounting : KvAccounting where
  layout := blockedLayout
  options := { resumePoints := some .responseEnd }
  capacityUnits := 1000
  layout_wellFormed := (KvCacheLayout.validate_ok_iff _).mp rfl
  interval_fits := by simp [ResumeIntervalFits]
  capacity_pos := by decide

/-- A 20-token prompt decodes from 31 to 32 tokens: the state at token 16 is dropped. -/
theorem checkpoint_shrinks : responseEndAccounting.checkpointUnits 20 31 = 10 ∧
      responseEndAccounting.checkpointUnits 20 32 = 0 ∧
      ¬ ∀ (acc : KvAccounting) (promptTokens len len' : Nat), promptTokens ≤ len → len ≤ len' →
        acc.checkpointUnits promptTokens len ≤ acc.checkpointUnits promptTokens len' := by
  have hbefore : responseEndAccounting.checkpointUnits 20 31 = 10 := by decide +kernel
  have hafter : responseEndAccounting.checkpointUnits 20 32 = 0 := by decide +kernel
  refine ⟨hbefore, hafter, fun h => ?_⟩
  have hle := h responseEndAccounting 20 31 32 (by decide) (by decide)
  rw [hbefore, hafter] at hle
  exact absurd hle (by decide)

end KvAccounting

end ServingSim
