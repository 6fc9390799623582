import Mathlib.Tactic
import Mathlib.Data.List.Sort

/-
  Unions of half-open intervals of natural numbers, and sweeps that measure them.

  The intervals of a list cover a finite set of instants, and its size is the measure of
  their union. A sweep takes the intervals by their starts and keeps the furthest end it
  has met: an interval that starts no earlier than the ones before it adds what lies
  behind that end, because the interval that reached it covers everything from the new
  start on.
-/

namespace IntervalUnion

/-- The instants in the intervals of a list. -/
def cover (intervals : List (Nat × Nat)) : Finset Nat :=
  intervals.foldr (fun interval covered => Finset.Ico interval.1 interval.2 ∪ covered) ∅

variable {l l' : List (Nat × Nat)} {interval : Nat × Nat} {x lo hi : Nat}

@[simp] theorem mem_cover : x ∈ cover l ↔ ∃ interval ∈ l, interval.1 ≤ x ∧ x < interval.2 := by
  induction l with
  | nil => simp [cover]
  | cons interval l ih =>
    have hcons : cover (interval :: l) = Finset.Ico interval.1 interval.2 ∪ cover l := rfl
    rw [hcons, Finset.mem_union, Finset.mem_Ico, ih]
    simp

@[simp] theorem cover_nil : cover [] = ∅ := rfl

theorem cover_append (l l' : List (Nat × Nat)) : cover (l ++ l') = cover l ∪ cover l' := by
  ext x
  simp only [mem_cover, Finset.mem_union, List.mem_append]
  constructor
  · rintro ⟨interval, hmem | hmem, hx⟩
    · exact .inl ⟨interval, hmem, hx⟩
    · exact .inr ⟨interval, hmem, hx⟩
  · rintro (⟨interval, hmem, hx⟩ | ⟨interval, hmem, hx⟩)
    · exact ⟨interval, .inl hmem, hx⟩
    · exact ⟨interval, .inr hmem, hx⟩

theorem cover_congr (h : ∀ interval, interval ∈ l ↔ interval ∈ l') : cover l = cover l' := by
  ext x
  simp only [mem_cover, h]

theorem cover_perm (h : l.Perm l') : cover l = cover l' := cover_congr fun _ => h.mem_iff

theorem cover_singleton (interval : Nat × Nat) :
    cover [interval] = Finset.Ico interval.1 interval.2 := by
  ext x
  simp

theorem cover_filter {p : Nat × Nat → Bool}
    (h : ∀ interval ∈ l, interval.1 < interval.2 → p interval = true) :
    cover (l.filter p) = cover l := by
  ext x
  simp only [mem_cover, List.mem_filter]
  constructor
  · rintro ⟨interval, ⟨hmem, -⟩, hx⟩
    exact ⟨interval, hmem, hx⟩
  · rintro ⟨interval, hmem, hx⟩
    exact ⟨interval, ⟨hmem, h interval hmem (by omega)⟩, hx⟩

/-! ## Clipping -/

/-- The part of an interval in a window. -/
def clip (lo hi : Nat) (interval : Nat × Nat) : Nat × Nat :=
  (max interval.1 lo, min interval.2 hi)

theorem cover_clip (l : List (Nat × Nat)) (lo hi : Nat) :
    cover (l.map (clip lo hi)) = cover l ∩ Finset.Ico lo hi := by
  ext x
  simp only [mem_cover, List.mem_map, Finset.mem_inter, Finset.mem_Ico]
  constructor
  · rintro ⟨_, ⟨interval, hmem, rfl⟩, hx⟩
    simp only [clip] at hx
    exact ⟨⟨interval, hmem, by omega⟩, by omega⟩
  · rintro ⟨⟨interval, hmem, hx⟩, hwindow⟩
    refine ⟨_, ⟨interval, hmem, rfl⟩, ?_⟩
    simp only [clip]
    omega

/-! ## Sweeps -/

/-- The furthest end of the intervals. -/
def reach (l : List (Nat × Nat)) : Nat := (l.map Prod.snd).foldr max 0

@[simp] theorem reach_nil : reach [] = 0 := rfl

@[simp] theorem reach_cons (interval : Nat × Nat) (l : List (Nat × Nat)) :
    reach (interval :: l) = max interval.2 (reach l) := rfl

theorem reach_append (l l' : List (Nat × Nat)) : reach (l ++ l') = max (reach l) (reach l') := by
  induction l with
  | nil => simp
  | cons interval l ih => rw [List.cons_append, reach_cons, reach_cons, ih, max_assoc]

theorem end_le_reach (h : interval ∈ l) : interval.2 ≤ reach l := by
  induction l with
  | nil => exact (List.not_mem_nil h).elim
  | cons first l ih =>
    rw [reach_cons]
    rcases List.mem_cons.mp h with rfl | h
    · exact Nat.le_max_left _ _
    · exact (ih h).trans (Nat.le_max_right _ _)

theorem lt_reach_of_mem_cover (h : x ∈ cover l) : x < reach l := by
  obtain ⟨interval, hmem, -, hx⟩ := mem_cover.mp h
  exact hx.trans_le (end_le_reach hmem)

theorem exists_reach (h : 0 < reach l) : ∃ interval ∈ l, interval.2 = reach l := by
  induction l with
  | nil => exact absurd h (Nat.lt_irrefl 0)
  | cons first l ih =>
    rw [reach_cons] at h ⊢
    rcases Nat.le_total (reach l) first.2 with hle | hle
    · exact ⟨first, List.mem_cons_self, (Nat.max_eq_left hle).symm⟩
    · rw [Nat.max_eq_right hle] at h ⊢
      obtain ⟨interval, hmem, hreach⟩ := ih h
      exact ⟨interval, List.mem_cons_of_mem _ hmem, hreach⟩

theorem mem_cover_of_lt_reach (hstart : ∀ interval ∈ l, interval.1 ≤ x) (hx : x < reach l) :
    x ∈ cover l := by
  obtain ⟨interval, hmem, hreach⟩ := exists_reach (Nat.zero_lt_of_lt hx)
  exact mem_cover.mpr ⟨interval, hmem, hstart interval hmem, hreach ▸ hx⟩

theorem card_cover_concat (hstart : ∀ other ∈ l, other.1 ≤ interval.1) :
    (cover (l ++ [interval])).card = (cover l).card + (interval.2 - max (reach l) interval.1) := by
  have hunion : cover (l ++ [interval]) =
      cover l ∪ Finset.Ico (max (reach l) interval.1) interval.2 := by
    rw [cover_append, cover_singleton]
    ext x
    simp only [Finset.mem_union, Finset.mem_Ico]
    constructor
    · rintro (hcovered | hx)
      · exact .inl hcovered
      · by_cases hreach : x < reach l
        · exact .inl (mem_cover_of_lt_reach (fun other hmem => (hstart other hmem).trans hx.1)
            hreach)
        · exact .inr (by omega)
    · rintro (hcovered | hx)
      · exact .inl hcovered
      · exact .inr (by omega)
  have hdisjoint : Disjoint (cover l) (Finset.Ico (max (reach l) interval.1) interval.2) := by
    rw [Finset.disjoint_left]
    intro x hcovered hx
    have hlt := lt_reach_of_mem_cover hcovered
    rw [Finset.mem_Ico] at hx
    omega
  rw [hunion, Finset.card_union_of_disjoint hdisjoint, Nat.card_Ico]

theorem cover_inter_Ico (interval : Nat × Nat) (hstart : ∀ other ∈ l, other.1 ≤ interval.1) :
    cover l ∩ Finset.Ico interval.1 interval.2 =
      Finset.Ico interval.1 (min (reach l) interval.2) := by
  ext x
  simp only [Finset.mem_inter, Finset.mem_Ico, lt_min_iff]
  constructor
  · rintro ⟨hcovered, hx⟩
    exact ⟨hx.1, lt_reach_of_mem_cover hcovered, hx.2⟩
  · rintro ⟨hx, hreach, hend⟩
    exact ⟨mem_cover_of_lt_reach (fun other hmem => (hstart other hmem).trans hx) hreach, hx, hend⟩

/-! ## Coalescing -/

/-- Take one more interval into a list of coalesced ones, the last of them first. -/
def coalesceStep (merged : List (Nat × Nat)) (interval : Nat × Nat) : List (Nat × Nat) :=
  match merged with
  | [] => [interval]
  | last :: rest =>
    if interval.1 ≤ last.2 then (last.1, max last.2 interval.2) :: rest
    else interval :: last :: rest

/-- Coalesce intervals that are sorted by their starts. -/
def coalesce (sorted : List (Nat × Nat)) : List (Nat × Nat) :=
  (sorted.foldl coalesceStep []).reverse

def lengths (l : List (Nat × Nat)) : List Nat := l.map fun interval => interval.2 - interval.1

/-- What a coalesced list has of the intervals it was made from. -/
structure Coalesced (l merged : List (Nat × Nat)) : Prop where
  ordered : ∀ interval ∈ merged, interval.1 ≤ interval.2
  reach : merged = [] ∧ l = [] ∨ ∃ last rest, merged = last :: rest ∧ last.2 = reach l
  measure : (lengths merged).sum = (cover l).card

theorem Coalesced.step {merged : List (Nat × Nat)} (h : Coalesced l merged)
    (hvalid : interval.1 ≤ interval.2) (hstart : ∀ other ∈ l, other.1 ≤ interval.1) :
    Coalesced (l ++ [interval]) (coalesceStep merged interval) := by
  have hmeasure := h.measure
  have hcard := card_cover_concat hstart
  have hreach : IntervalUnion.reach (l ++ [interval]) = max (IntervalUnion.reach l) interval.2 := by
    rw [reach_append]
    simp
  rcases h.reach with ⟨rfl, rfl⟩ | ⟨last, rest, rfl, hlast⟩
  · refine ⟨fun other hmem => ?_, .inr ⟨interval, [], rfl, ?_⟩, ?_⟩
    · rw [List.mem_singleton.mp hmem]
      exact hvalid
    · rw [hreach, reach_nil]
      omega
    · rw [hcard]
      simp [coalesceStep, lengths]
  · have hordered := h.ordered last List.mem_cons_self
    rw [coalesceStep]
    split
    · -- the interval touches the last one
      refine ⟨fun other hmem => ?_, .inr ⟨_, _, rfl, ?_⟩, ?_⟩
      · rcases List.mem_cons.mp hmem with rfl | hmem
        · exact hordered.trans (Nat.le_max_left _ _)
        · exact h.ordered other (List.mem_cons_of_mem _ hmem)
      · rw [hreach, hlast]
      · simp only [lengths, List.map_cons, List.sum_cons] at hmeasure ⊢
        omega
    · refine ⟨fun other hmem => ?_, .inr ⟨_, _, rfl, ?_⟩, ?_⟩
      · rcases List.mem_cons.mp hmem with rfl | hmem
        · exact hvalid
        · exact h.ordered other hmem
      · rw [hreach]
        omega
      · simp only [lengths, List.map_cons, List.sum_cons] at hmeasure ⊢
        omega

theorem coalesced_foldl (hvalid : ∀ interval ∈ l, interval.1 ≤ interval.2)
    (hsorted : l.Pairwise fun a b => a.1 ≤ b.1) : Coalesced l (l.foldl coalesceStep []) := by
  induction l using List.reverseRecOn with
  | nil => exact ⟨fun _ hmem => (List.not_mem_nil hmem).elim, .inl ⟨rfl, rfl⟩, rfl⟩
  | append_singleton l interval ih =>
    rw [List.pairwise_append] at hsorted
    rw [List.foldl_append, List.foldl_cons, List.foldl_nil]
    refine (ih (fun other hmem => hvalid other (List.mem_append_left _ hmem)) hsorted.1).step
      (hvalid interval (by simp)) fun other hmem => ?_
    exact hsorted.2.2 other hmem interval (List.mem_singleton_self _)

theorem sum_lengths_coalesce (hvalid : ∀ interval ∈ l, interval.1 ≤ interval.2)
    (hsorted : l.Pairwise fun a b => a.1 ≤ b.1) :
    (lengths (coalesce l)).sum = (cover l).card := by
  have h := (coalesced_foldl hvalid hsorted).measure
  rw [coalesce, lengths, List.map_reverse, List.sum_reverse]
  exact h

end IntervalUnion
