import Mathlib.Data.List.TakeWhile
import ServingSim.Kv.CheckpointCharge
import ServingSim.Lib.TailCover

/-
  The tails before a retained entry's resume positions (`window_tail_union`).

  A retained entry keeps, before each of its positions, the last tokens of every reusable
  window. Positions are the multiples of a spacing and up to two more. The source never
  lists them: it multiplies the number of multiples by what one gap covers and corrects the
  gaps the other positions split. Here the positions are a finite set, the kept tokens the
  union of the intervals before them, and both of the source's numbers are their sizes.

  What is proved:
    1. `window_tails_counted` — both numbers, for every value the accounting can reach.
-/

namespace ServingSim

namespace ResumePositions

open TailCover

/-- The positions as a set. -/
def positionSet (positions : ResumePositions) : Finset Nat :=
  (Finset.Ioc 0 positions.lastPosition).filter fun p =>
    p ∈ positions.explicitPoints ∨ positions.onSeries p = true

/-! ## Positions in order -/

/-- The explicit positions are distinct, in order and within the entry. -/
structure Ordered (positions : ResumePositions) : Prop where
  sorted : positions.explicitPoints.Pairwise (· < ·)
  within : ∀ p ∈ positions.explicitPoints, 0 < p ∧ p ≤ positions.lastPosition
  spacing_pos : ∀ spacing ∈ positions.every, 0 < spacing

theorem ordered_everyUpTo {spacing last : Nat} (h : 0 < spacing) :
    (everyUpTo spacing last).Ordered where
  sorted := List.Pairwise.nil
  within := by
    intro p hp
    cases hp
  spacing_pos := by
    intro other ho
    cases ho
    exact h

theorem sorted_of_nodup {points : List Nat} (hnodup : points.Nodup)
    (hsorted : points.Pairwise (· ≤ ·)) : points.Pairwise (· < ·) := by
  apply (hsorted.and hnodup).imp
  intro a b h
  exact Nat.lt_of_le_of_ne h.1 h.2

theorem getLast?_ge {points : List Nat} (h : points.Pairwise (· ≤ ·)) {p : Nat}
    (hp : p ∈ points) : p ≤ points.getLast?.getD 0 := by
  obtain ⟨init, last, rfl⟩ : ∃ init last, points = init ++ [last] :=
    ⟨_, _, (List.dropLast_concat_getLast (List.ne_nil_of_mem hp)).symm⟩
  rw [List.getLast?_concat, Option.getD_some]
  rw [List.pairwise_append] at h
  rcases List.mem_append.mp hp with hp | hp
  · exact h.2.2 p hp last (List.mem_singleton_self last)
  · rw [List.mem_singleton.mp hp]

theorem keptPoints_sorted (explicit : Option Nat × Option Nat) (contextTokens : Nat) :
    (keptPoints explicit contextTokens).Pairwise (· ≤ ·) :=
  (List.pairwise_insertionSort (· ≤ ·) _).sublist (List.destutter_sublist _ _)

theorem lastPosition_ofExplicit (explicit : Option Nat × Option Nat) (every : Option Nat)
    (contextTokens : Nat) :
    (ofExplicit explicit every contextTokens).lastPosition =
      max ((keptPoints explicit contextTokens).getLast?.getD 0)
        (seriesFloor every contextTokens) := rfl

theorem ordered_ofExplicit (explicit : Option Nat × Option Nat) {every : Option Nat}
    (contextTokens : Nat) (h : ∀ spacing ∈ every, 0 < spacing) :
    (ofExplicit explicit every contextTokens).Ordered := by
  obtain ⟨hnodup, -, hmem⟩ := keptPoints_spec explicit contextTokens
  have hsorted := keptPoints_sorted explicit contextTokens
  refine ⟨?_, ?_, h⟩
  · rw [explicitPoints_eq_kept]
    exact sorted_of_nodup hnodup hsorted
  · intro p hp
    rw [explicitPoints_eq_kept] at hp
    refine ⟨((hmem p).mp hp).2.1, ?_⟩
    rw [lastPosition_ofExplicit]
    exact (getLast?_ge hsorted hp).trans (le_max_left _ _)

theorem Ordered.truncated {positions : ResumePositions} (h : positions.Ordered) (last : Nat) :
    (positions.truncated last).Ordered where
  sorted := by
    rw [explicitPoints_truncated]
    exact h.sorted.filter _
  within := by
    intro p hp
    rw [explicitPoints_truncated, List.mem_filter, decide_eq_true_eq] at hp
    obtain ⟨hpos, hle⟩ := h.within p hp.1
    exact ⟨hpos, le_min hp.2 hle⟩
  spacing_pos := h.spacing_pos

/-! ## The count -/

section count

variable {positions : ResumePositions}

theorem mem_offSeries {p : Nat} :
    p ∈ positions.offSeries ↔ p ∈ positions.explicitPoints ∧ positions.onSeries p = false := by
  simp [offSeries]

theorem mem_positionSet (h : positions.Ordered) {p : Nat} :
    p ∈ positions.positionSet ↔ p ∈ positions.offSeries ∨
      0 < p ∧ p ≤ positions.lastPosition ∧ positions.onSeries p = true := by
  simp only [positionSet, Finset.mem_filter, Finset.mem_Ioc, mem_offSeries]
  have hwithin := h.within p
  cases positions.onSeries p with
  | true => simp
  | false =>
    simp only [Bool.false_eq_true, or_false, and_false, and_true]
    exact ⟨fun hp => hp.2, fun hp => ⟨hwithin hp, hp⟩⟩

theorem seriesCount_eq_card : positions.seriesCount =
      ((Finset.Ioc 0 positions.lastPosition).filter fun p => positions.onSeries p = true).card := by
  unfold seriesCount onSeries
  cases positions.every with
  | none => simp
  | some spacing =>
    have hcount := Nat.Ioc_filter_dvd_card_eq_div positions.lastPosition spacing
    simp only [decide_eq_true_eq, ← Nat.dvd_iff_mod_eq_zero, hcount]

theorem count_eq_card (h : positions.Ordered) : positions.count = positions.positionSet.card := by
  have hunion : positions.positionSet =
      (Finset.Ioc 0 positions.lastPosition).filter (fun p => positions.onSeries p = true) ∪
        positions.offSeries.toFinset := by
    ext p
    rw [mem_positionSet h]
    simp only [Finset.mem_union, Finset.mem_filter, Finset.mem_Ioc, List.mem_toFinset, and_assoc]
    exact or_comm
  have hdisjoint : Disjoint
      ((Finset.Ioc 0 positions.lastPosition).filter fun p => positions.onSeries p = true)
      positions.offSeries.toFinset := by
    rw [Finset.disjoint_left]
    intro p hp hoff
    rw [List.mem_toFinset, mem_offSeries] at hoff
    rw [Finset.mem_filter, hoff.2] at hp
    cases hp.2
  have hnodup : positions.offSeries.Nodup := (h.sorted.imp Nat.ne_of_lt).filter _
  rw [count, hunion, Finset.card_union_of_disjoint hdisjoint, seriesCount_eq_card,
    List.toFinset_card_of_nodup hnodup]

end count

/-! ## One gap -/

theorem gapCover_eq (tail a b : Nat) : gapCover tail a b = min (b - a) tail := rfl

theorem splitGap_eq (tail gapEnd split previous : Nat) (points : List Nat) :
    splitGap tail gapEnd split previous points =
      (split + walkTails tail previous (points.takeWhile (· < gapEnd)),
        (points.takeWhile (· < gapEnd)).getLastD previous, points.dropWhile (· < gapEnd)) := by
  induction points generalizing split previous with
  | nil => rfl
  | cons point rest ih =>
    unfold splitGap
    split
    · next hlt =>
      have hinside : (fun q => decide (q < gapEnd)) point = true := by simpa using hlt
      rw [ih, gapCover_eq, List.takeWhile_cons_of_pos (p := fun q => decide (q < gapEnd)) hinside,
        List.dropWhile_cons_of_pos (p := fun q => decide (q < gapEnd)) hinside,
        List.getLastD_cons, walkTails, Nat.add_assoc]
    · next hge => simp [hge, walkTails]

theorem le_of_mem_dropWhile {points : List Nat} {bound q : Nat} (h : points.Pairwise (· < ·))
    (hq : q ∈ points.dropWhile (· < bound)) : bound ≤ q := by
  induction points with
  | nil => cases hq
  | cons p rest ih =>
    obtain ⟨hp, hrest⟩ := List.pairwise_cons.mp h
    by_cases hlt : p < bound
    · rw [List.dropWhile_cons_of_pos (by simpa using hlt)] at hq
      exact ih hrest hq
    · rw [List.dropWhile_cons_of_neg (by simpa using hlt)] at hq
      rcases List.mem_cons.mp hq with rfl | hq
      · exact Nat.not_lt.mp hlt
      · have hlater := hp q hq
        omega

theorem lt_of_mem_takeWhile {points : List Nat} {bound q : Nat}
    (hq : q ∈ points.takeWhile (· < bound)) : q < bound := by
  simpa using List.mem_takeWhile_imp hq

/-! ## Gap after gap -/

/-- The off-series positions behind series position `first * spacing` are `points`. -/
structure OffBehind (set : Finset Nat) (spacing last first : Nat) (points : List Nat) : Prop where
  spacing_pos : 0 < spacing
  sorted : points.Pairwise (· < ·)
  off : ∀ p ∈ points, p ∈ set ∧ first * spacing < p ∧ ¬ spacing ∣ p
  series : ∀ k, 0 < k → k * spacing ≤ last → k * spacing ∈ set
  le_last : ∀ p ∈ set, p ≤ last
  only : ∀ p ∈ set, first * spacing < p → p ∈ points ∨ spacing ∣ p

section gaps

variable {set : Finset Nat} {spacing last first tail : Nat} {points : List Nat}

theorem OffBehind.covered_before (h : OffBehind set spacing last first points) {next : Nat}
    (hle : first ≤ next) (hlast : next * spacing ≤ last)
    (hpoints : ∀ p ∈ points, next * spacing < p) :
    coveredWithin set tail (first * spacing) (next * spacing) =
      (next - first) * min spacing tail := by
  apply covered_series hle
  · intro k hk hk'
    exact h.series k (by omega) ((Nat.mul_le_mul_right _ hk').trans hlast)
  · intro p hp hlow hhigh
    rcases h.only p hp hlow with hmem | hdvd
    · have hlater := hpoints p hmem
      omega
    · exact hdvd

theorem OffBehind.covered_nil (h : OffBehind set spacing last first [])
    (hle : first ≤ last / spacing) :
    coveredWithin set tail (first * spacing) last =
      (last / spacing - first) * min spacing tail := by
  have hfloor := Nat.div_mul_le_self last spacing
  have hbeyond : coveredWithin set tail (last / spacing * spacing) last = 0 := by
    apply covered_beyond
    intro p hp
    by_contra hlt
    have hfirst : first * spacing < p := by
      have hmul := Nat.mul_le_mul_right spacing hle
      omega
    rcases h.only p hp hfirst with hmem | ⟨k, rfl⟩
    · cases hmem
    · apply hlt
      rw [Nat.mul_comm spacing k]
      apply Nat.mul_le_mul_right
      rw [Nat.le_div_iff_mul_le h.spacing_pos, Nat.mul_comm]
      exact h.le_last _ hp
  rw [covered_add (Nat.mul_le_mul_right spacing hle) hfloor, hbeyond,
    h.covered_before hle hfloor fun p hp => by cases hp]
  rfl

section round

variable {point : Nat} {rest : List Nat}

section

variable (h : OffBehind set spacing last first (point :: rest))

include h

theorem OffBehind.gapStart :
    first * spacing ≤ point / spacing * spacing ∧
      ∀ q ∈ point :: rest, point / spacing * spacing < q := by
  obtain ⟨-, hfirst, hndvd⟩ := h.off point List.mem_cons_self
  have hfloor := Nat.div_mul_le_self point spacing
  have hne : point / spacing * spacing ≠ point := fun heq =>
    hndvd ⟨point / spacing, by rw [Nat.mul_comm, heq]⟩
  refine ⟨?_, ?_⟩
  · apply Nat.mul_le_mul_right
    rw [Nat.le_div_iff_mul_le h.spacing_pos]
    omega
  · intro q hq
    rcases List.mem_cons.mp hq with rfl | hq
    · omega
    · have hlater := List.rel_of_pairwise_cons h.sorted hq
      omega

theorem OffBehind.mem_gap {q : Nat}
    (hq : q ∈ set) (hlow : point / spacing * spacing < q)
    (hhigh : q < point / spacing * spacing + spacing) :
    q ∈ (point :: rest).takeWhile (· < point / spacing * spacing + spacing) := by
  have hfirst := h.gapStart.1
  rcases h.only q hq (by omega) with hmem | ⟨k, rfl⟩
  · rw [← List.takeWhile_append_dropWhile
      (p := (· < point / spacing * spacing + spacing)) (l := point :: rest)] at hmem
    rcases List.mem_append.mp hmem with hin | hout
    · exact hin
    · have hge := le_of_mem_dropWhile h.sorted hout
      omega
  · -- no multiple lies strictly between two neighbouring ones
    rw [Nat.mul_comm spacing k] at hlow hhigh
    rw [← Nat.succ_mul] at hhigh
    have hk := Nat.lt_of_mul_lt_mul_right hlow
    have hk' := Nat.lt_of_mul_lt_mul_right hhigh
    omega

theorem OffBehind.follows :
    Follows set (point / spacing * spacing)
      ((point :: rest).takeWhile (· < point / spacing * spacing + spacing)) := by
  refine ⟨?_, ?_, ?_⟩
  · refine List.pairwise_cons.mpr ⟨?_, h.sorted.sublist (List.takeWhile_sublist _)⟩
    intro q hq
    exact h.gapStart.2 q ((List.takeWhile_sublist _).subset hq)
  · intro q hq
    exact (h.off q ((List.takeWhile_sublist _).subset hq)).1
  · intro q hq hlow
    by_cases hhigh : q < point / spacing * spacing + spacing
    · exact .inl (h.mem_gap hq hlow hhigh)
    · right
      intro r hr
      have hr := lt_of_mem_takeWhile hr
      omega

theorem OffBehind.behind :
    OffBehind set spacing last (point / spacing + 1)
      ((point :: rest).dropWhile (· < point / spacing * spacing + spacing)) := by
  have hfirst := h.gapStart.1
  have hnext : (point / spacing + 1) * spacing = point / spacing * spacing + spacing := by
    rw [Nat.add_mul, Nat.one_mul]
  refine ⟨h.spacing_pos, h.sorted.sublist (List.dropWhile_sublist _), ?_, h.series, h.le_last, ?_⟩
  · intro q hq
    obtain ⟨hmem, -, hndvd⟩ := h.off q ((List.dropWhile_sublist _).subset hq)
    refine ⟨hmem, ?_, hndvd⟩
    have hge := le_of_mem_dropWhile h.sorted hq
    have hne : q ≠ (point / spacing + 1) * spacing := fun heq =>
      hndvd ⟨point / spacing + 1, by rw [Nat.mul_comm, ← heq]⟩
    omega
  · intro q hq hlt
    rcases h.only q hq (by omega) with hmem | hdvd
    · rw [← List.takeWhile_append_dropWhile
        (p := (· < point / spacing * spacing + spacing)) (l := point :: rest)] at hmem
      rcases List.mem_append.mp hmem with hin | hout
      · have hin := lt_of_mem_takeWhile hin
        omega
      · exact .inl hout
    · exact .inr hdvd

end

theorem OffBehind.covered_closed (h : OffBehind set spacing last first (point :: rest))
    (hclosed : point / spacing * spacing + spacing ≤ last) :
    coveredWithin set tail (point / spacing * spacing)
        (point / spacing * spacing + spacing) =
      walkTails tail (point / spacing * spacing)
          ((point :: rest).takeWhile (· < point / spacing * spacing + spacing)) +
        gapCover tail
          (((point :: rest).takeWhile
            (· < point / spacing * spacing + spacing)).getLastD (point / spacing * spacing))
          (point / spacing * spacing + spacing) := by
  have hfollows := h.follows
  have hend : point / spacing * spacing + spacing ∈ set := by
    have hseries := h.series (point / spacing + 1) (Nat.succ_pos _)
    rw [Nat.succ_mul] at hseries
    exact hseries hclosed
  have hlast : ((point :: rest).takeWhile
      (· < point / spacing * spacing + spacing)).getLastD (point / spacing * spacing) ≤
      point / spacing * spacing + spacing := by
    rcases List.mem_cons.mp List.getLastD_mem_cons with hstart | hin
    · rw [hstart]
      exact Nat.le_add_right _ _
    · exact Nat.le_of_lt (lt_of_mem_takeWhile hin)
  rw [covered_walk hfollows hlast, covered_gap hlast hend, gapCover_eq]
  intro q hq
  by_cases hhigh : q < point / spacing * spacing + spacing
  · left
    by_cases hlow : point / spacing * spacing < q
    · exact le_getLastD hfollows.sorted
        (List.mem_cons_of_mem _ (h.mem_gap hq hlow hhigh))
    · have hstart := le_getLastD hfollows.sorted List.mem_cons_self
      omega
  · exact .inr (Nat.not_lt.mp hhigh)

theorem OffBehind.covered_open (h : OffBehind set spacing last first (point :: rest))
    (hopen : last < point / spacing * spacing + spacing) :
    coveredWithin set tail (point / spacing * spacing) last =
      walkTails tail (point / spacing * spacing)
        ((point :: rest).takeWhile (· < point / spacing * spacing + spacing)) := by
  have hfollows := h.follows
  have hlast : ((point :: rest).takeWhile
      (· < point / spacing * spacing + spacing)).getLastD (point / spacing * spacing) ≤ last := by
    rcases List.mem_cons.mp List.getLastD_mem_cons with hstart | hin
    · rw [hstart]
      exact (Nat.div_mul_le_self point spacing).trans
        (h.le_last point (h.off point List.mem_cons_self).1)
    · exact h.le_last _ (hfollows.mem _ hin)
  rw [covered_walk hfollows hlast, covered_beyond, Nat.add_zero]
  intro q hq
  have hle := h.le_last q hq
  by_cases hlow : point / spacing * spacing < q
  · exact le_getLastD hfollows.sorted
      (List.mem_cons_of_mem _ (h.mem_gap hq hlow (by omega)))
  · have hstart := le_getLastD hfollows.sorted List.mem_cons_self
    omega

theorem OffBehind.length_behind (h : OffBehind set spacing last first (point :: rest)) :
    ((point :: rest).dropWhile (· < point / spacing * spacing + spacing)).length ≤
      rest.length := by
  have hin : (fun q => decide (q < point / spacing * spacing + spacing)) point = true := by
    simpa using Nat.lt_div_mul_add h.spacing_pos
  rw [List.dropWhile_cons_of_pos (p := fun q =>
    decide (q < point / spacing * spacing + spacing)) hin]
  exact (List.dropWhile_sublist _).length_le

end round

theorem coverSplits_nil (fuel covered : Nat) :
    coverSplits tail spacing last fuel covered [] = covered := by
  cases fuel with
  | zero => rfl
  | succ fuel => simp [coverSplits]

theorem coverSplits_spec {fuel covered : Nat} (h : OffBehind set spacing last first points)
    (hfuel : points.length ≤ fuel) (hle : first ≤ last / spacing)
    (hcovered : (last / spacing - first) * min spacing tail ≤ covered) :
    coverSplits tail spacing last fuel covered points +
        (last / spacing - first) * min spacing tail =
      covered + coveredWithin set tail (first * spacing) last := by
  induction fuel generalizing first covered points with
  | zero =>
    obtain rfl : points = [] := List.length_eq_zero_iff.mp (Nat.le_zero.mp hfuel)
    rw [h.covered_nil hle, coverSplits_nil]
  | succ fuel ih =>
    cases points with
    | nil => rw [h.covered_nil hle, coverSplits_nil]
    | cons point rest =>
      obtain ⟨hstart, hlater⟩ := h.gapStart
      have hlast := h.le_last point (h.off point List.mem_cons_self).1
      have hgap : first ≤ point / spacing := Nat.le_of_mul_le_mul_right hstart h.spacing_pos
      have hgap' : point / spacing ≤ last / spacing := Nat.div_le_div_right hlast
      have hfloor := Nat.div_mul_le_self point spacing
      have hbefore := @OffBehind.covered_before set spacing last first tail _ h _ hgap
        (hfloor.trans hlast) hlater
      have htotal := @covered_add set tail _ _ _ hstart (hfloor.trans hlast)
      have hround : (last / spacing - first) * min spacing tail =
          (point / spacing - first) * min spacing tail +
            (last / spacing - point / spacing) * min spacing tail := by
        rw [← Nat.add_mul]
        congr 1
        omega
      simp only [coverSplits, splitGap_eq, Nat.zero_add]
      split
      · next hclosed =>
        have hnext : point / spacing + 1 ≤ last / spacing := by
          rw [Nat.le_div_iff_mul_le h.spacing_pos, Nat.succ_mul]
          exact hclosed
        have hone : (last / spacing - point / spacing) * min spacing tail =
            (last / spacing - (point / spacing + 1)) * min spacing tail + min spacing tail := by
          rw [← Nat.succ_mul]
          congr 1
          omega
        have hsplit := @covered_add set tail _ _ _
          (Nat.le_add_right (point / spacing * spacing) spacing) hclosed
        have hcount := @OffBehind.covered_closed set spacing last first tail point rest h hclosed
        have hrest := @ih _ _ (covered - min spacing tail +
          (walkTails tail (point / spacing * spacing)
              ((point :: rest).takeWhile (· < point / spacing * spacing + spacing)) +
            gapCover tail
              (((point :: rest).takeWhile
                (· < point / spacing * spacing + spacing)).getLastD (point / spacing * spacing))
              (point / spacing * spacing + spacing)))
          h.behind (h.length_behind.trans (Nat.le_of_succ_le_succ hfuel)) hnext (by omega)
        rw [Nat.succ_mul (point / spacing)] at hrest
        omega
      · next hopen =>
        have hopen := Nat.not_le.mp hopen
        have hsame : last / spacing = point / spacing := by
          apply Nat.le_antisymm _ hgap'
          rw [← Nat.lt_succ_iff, Nat.div_lt_iff_lt_mul h.spacing_pos, Nat.succ_mul]
          exact hopen
        -- the gap holds every point that is left
        have hnone : (point :: rest).dropWhile (· < point / spacing * spacing + spacing) = [] := by
          rw [List.dropWhile_eq_nil_iff]
          intro q hq
          have hle := h.le_last q (h.off q hq).1
          rw [decide_eq_true_eq]
          omega
        have hcount := @OffBehind.covered_open set spacing last first tail point rest h hopen
        rw [hnone, coverSplits_nil, hsame]
        omega

end gaps

/-! ## The union -/

section union

variable {positions : ResumePositions} {tail : Nat}

theorem foldl_gaps (points : List Nat) (previous covered : Nat) :
    (points.foldl (fun (previous, covered) point =>
        (point, covered + gapCover tail previous point)) (previous, covered)).2 =
      covered + walkTails tail previous points := by
  induction points generalizing previous covered with
  | nil => rfl
  | cons point rest ih => rw [List.foldl_cons, ih, walkTails, gapCover_eq, Nat.add_assoc]

theorem offSeries_sorted (h : positions.Ordered) : positions.offSeries.Pairwise (· < ·) :=
  h.sorted.filter _

theorem offSeries_follows (h : positions.Ordered) (hevery : positions.every = none) :
    Follows positions.positionSet 0 positions.offSeries := by
  refine ⟨?_, ?_, ?_⟩
  · refine List.pairwise_cons.mpr ⟨?_, offSeries_sorted h⟩
    intro p hp
    exact (h.within p (mem_offSeries.mp hp).1).1
  · intro p hp
    exact (mem_positionSet h).mpr (.inl hp)
  · intro p hp _
    rcases (mem_positionSet h).mp hp with hoff | ⟨-, -, hon⟩
    · exact .inl hoff
    · simp [onSeries, hevery] at hon

theorem offSeries_behind (h : positions.Ordered) {spacing : Nat}
    (hevery : positions.every = some spacing) :
    OffBehind positions.positionSet spacing positions.lastPosition 0 positions.offSeries := by
  have hon : ∀ p, positions.onSeries p = true ↔ spacing ∣ p := by
    intro p
    simp [onSeries, hevery, Nat.dvd_iff_mod_eq_zero]
  have hpos : 0 < spacing := h.spacing_pos spacing hevery
  refine ⟨hpos, offSeries_sorted h, ?_, ?_, ?_, ?_⟩
  · intro p hp
    obtain ⟨hexplicit, hoff⟩ := mem_offSeries.mp hp
    refine ⟨(mem_positionSet h).mpr (.inl hp), ?_, ?_⟩
    · rw [Nat.zero_mul]
      exact (h.within p hexplicit).1
    · rw [← hon, hoff]
      exact Bool.false_ne_true
  · intro k hk hle
    apply (mem_positionSet h).mpr
    exact .inr ⟨Nat.mul_pos hk hpos, hle, (hon _).mpr (Nat.dvd_mul_left spacing k)⟩
  · intro p hp
    exact (Finset.mem_Ioc.mp (Finset.mem_filter.mp hp).1).2
  · intro p hp _
    rcases (mem_positionSet h).mp hp with hoff | ⟨-, -, hseries⟩
    · exact .inl hoff
    · exact .inr ((hon p).mp hseries)

theorem windowTailUnion_eq_card (h : positions.Ordered) (tail : Nat) :
    positions.windowTailUnion tail = (tails positions.positionSet tail).card := by
  have hbound : ∀ p ∈ positions.positionSet, p ≤ positions.lastPosition := by
    intro p hp
    exact (Finset.mem_Ioc.mp (Finset.mem_filter.mp hp).1).2
  rw [card_tails hbound]
  unfold windowTailUnion
  split
  · next hevery =>
    have hfollows := offSeries_follows h hevery
    have hlast : positions.offSeries.getLastD 0 ≤ positions.lastPosition := by
      rcases List.mem_cons.mp List.getLastD_mem_cons with hzero | hmem
      · rw [hzero]
        exact Nat.zero_le _
      · exact hbound _ (hfollows.mem _ hmem)
    rw [foldl_gaps, Nat.zero_add, covered_walk hfollows hlast, covered_beyond, Nat.add_zero]
    intro p hp
    rcases (mem_positionSet h).mp hp with hoff | ⟨-, -, hon⟩
    · exact le_getLastD hfollows.sorted (List.mem_cons_of_mem 0 hoff)
    · simp [onSeries, hevery] at hon
  · next spacing hevery =>
    have hseries : positions.seriesCount = positions.lastPosition / spacing := by
      simp [seriesCount, hevery]
    have hsplits := @coverSplits_spec _ _ _ _ tail _ _ _ (offSeries_behind h hevery)
      (Nat.le_refl _) (Nat.zero_le _) (Nat.le_refl _)
    rw [Nat.sub_zero, Nat.zero_mul] at hsplits
    rw [hseries]
    omega

end union

end ResumePositions

/-! ## Values the accounting reaches -/

/-- The resume positions of a request, whole or cut at any length. -/
inductive KvAccounting.ResumeReached (acc : KvAccounting) : ResumePositions → Prop where
  | resume (promptTokens contextTokens : Nat) :
      ResumeReached acc (acc.resumePositions promptTokens contextTokens)
  | truncated {positions : ResumePositions} (last : Nat) :
      ResumeReached acc positions → ResumeReached acc (positions.truncated last)

theorem KvAccounting.ordered_resumePositions (acc : KvAccounting)
    (promptTokens contextTokens : Nat) :
    (acc.resumePositions promptTokens contextTokens).Ordered := by
  have hblock : ∀ spacing ∈ some acc.blockTokens, 0 < spacing := by
    intro spacing hs
    cases hs
    exact acc.blockTokens_pos
  have hinterval : ∀ spacing ∈ acc.options.resumeInterval, 0 < spacing :=
    fun spacing hs => (acc.interval_fits spacing hs).1
  unfold resumePositions
  dsimp only
  split
  · exact ResumePositions.ordered_everyUpTo acc.blockTokens_pos
  · split
    · exact ResumePositions.ordered_ofExplicit _ _ hinterval
    · exact ResumePositions.ordered_ofExplicit _ _ hinterval
    · exact ResumePositions.ordered_ofExplicit _ _ hinterval
    · exact ResumePositions.ordered_ofExplicit _ _ hblock

theorem KvAccounting.ResumeReached.ordered {acc : KvAccounting} {positions : ResumePositions}
    (h : acc.ResumeReached positions) : positions.Ordered := by
  induction h with
  | resume promptTokens contextTokens => exact acc.ordered_resumePositions _ _
  | truncated last _ ih => exact ih.truncated last

/-- For every value the accounting reaches, the closed form is the number of tokens in the union of
the tails before its positions, and the count the number of its positions. -/
theorem window_tails_counted (acc : KvAccounting) (positions : ResumePositions) (tail : Nat)
    (h : acc.ResumeReached positions) :
    positions.windowTailUnion tail =
        (positions.positionSet.biUnion fun p => Finset.Ioc (p - tail) p).card ∧
      positions.count = positions.positionSet.card :=
  ⟨ResumePositions.windowTailUnion_eq_card h.ordered tail, ResumePositions.count_eq_card h.ordered⟩

/-- One unit a token, a window of four tokens of two units each and a resumable state of three:
resumed at a prompt's end, a response's end and every fifth token. -/
def windowedLayout : KvCacheLayout where
  parts := [KvCachePart.perToken "kv" 1, KvCachePart.perRequest "state" 3,
    { name := "window", growth := .slidingWindow 4, bytesPerEntry := 2 }]

def everyFifth : KvAccountingOptions where
  overhead := .none
  resumePoints := some .promptAndResponseEnd
  resumeInterval := some 5

theorem windowedLayout_wellFormed : windowedLayout.WellFormed :=
  (KvCacheLayout.validate_ok_iff _).mp rfl

theorem windowedLayout_interval : ResumeIntervalFits windowedLayout everyFifth := by
  simp [ResumeIntervalFits, everyFifth, resolvedBlockTokens]

def windowedTokens : KvAccounting where
  layout := windowedLayout
  options := everyFifth
  capacityUnits := 80
  layout_wellFormed := windowedLayout_wellFormed
  interval_fits := windowedLayout_interval
  capacity_pos := Nat.succ_pos 79

/-- A prompt of seven tokens that finished at eighteen, cut at sixteen: 5, 7, 10 and 15 are left. -/
def cutPositions : ResumePositions := (windowedTokens.resumePositions 7 18).truncated 16

theorem window_tails_of_cut : cutPositions.windowTailUnion 3 =
        (cutPositions.positionSet.biUnion fun p => Finset.Ioc (p - 3) p).card ∧
      cutPositions.count = cutPositions.positionSet.card ∧
      cutPositions.windowTailUnion 3 = 11 ∧ cutPositions.count = 4 := by
  obtain ⟨htails, hcount⟩ :=
    window_tails_counted windowedTokens cutPositions 3 (.truncated 16 (.resume 7 18))
  exact ⟨htails, hcount, by decide +kernel, by decide +kernel⟩

end ServingSim
