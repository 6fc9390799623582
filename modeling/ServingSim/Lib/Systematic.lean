import Mathlib.Algebra.BigOperators.Intervals
import Mathlib.Algebra.Order.BigOperators.Group.Finset
import Mathlib.Data.List.Perm.Basic
import Mathlib.Order.Interval.Finset.Nat
import Mathlib.Tactic

/-
  Systematic sampling with unequal masses.

  The items are laid end to end, each as long as its mass. A point of that line
  belongs to the item whose interval it falls in, and an offset in `[0, period)`
  picks one item in each period. Cutting `[0, period)` at the residues of all
  interval ends gives cells inside which the picks do not change, so that sums
  over the cells, weighted by their widths, are sums over the offsets.
-/

namespace Systematic

/-! ## Binary search -/

/-- The index of the first element that does not satisfy a predicate the list is
partitioned by. -/
def partitionPoint {α : Type*} (pred : α → Bool) (l : List α) : Nat := (l.takeWhile pred).length

theorem partitionPoint_congr {α : Type*} {pred pred' : α → Bool} {l : List α}
    (h : ∀ a ∈ l, pred a = pred' a) : partitionPoint pred l = partitionPoint pred' l := by
  unfold partitionPoint
  induction l with
  | nil => rfl
  | cons a l ih =>
    rw [List.takeWhile_cons, List.takeWhile_cons, h a List.mem_cons_self]
    split
    · rw [List.length_cons, List.length_cons, ih fun b hb => h b (List.mem_cons_of_mem _ hb)]
    · rfl

/-! ## Items laid end to end -/

section line

variable {α : Type*} (m : α → Nat)

/-- Where the intervals of the items end. -/
def ends : Nat → List α → List Nat
  | _, [] => []
  | start, a :: items => (start + m a) :: ends (start + m a) items

/-- The item whose interval a point falls in. -/
def owner (start : Nat) (items : List α) (point : Nat) : Option α :=
  items[partitionPoint (fun upper => decide (upper ≤ point)) (ends m start items)]?

variable {m}

@[simp] theorem owner_nil (start point : Nat) : owner m start [] point = none := rfl

theorem owner_cons (start : Nat) (a : α) (items : List α) (point : Nat) :
    owner m start (a :: items) point =
      if point < start + m a then some a else owner m (start + m a) items point := by
  rw [owner, ends, partitionPoint, List.takeWhile_cons]
  by_cases h : point < start + m a
  · rw [if_pos h, if_neg (by simpa using h)]
    rfl
  · rw [if_neg h, if_pos (by simpa using h)]
    rfl

variable {items : List α}

theorem owner_mem {start point : Nat} {a : α}
    (h : owner m start items point = some a) : a ∈ items :=
  List.mem_of_getElem? h

theorem exists_owner {start point : Nat} (hstart : start ≤ point)
    (h : point < start + (items.map m).sum) :
    ∃ a, owner m start items point = some a := by
  induction items generalizing start with
  | nil => exact absurd h (by simpa using hstart)
  | cons a items ih =>
    rw [owner_cons]
    split
    · exact ⟨a, rfl⟩
    · rw [List.map_cons, List.sum_cons] at h
      exact ih (by omega) (by omega)

theorem owner_congr {start p q : Nat} (hpq : p ≤ q)
    (h : ∀ upper ∈ ends m start items, upper ≤ q → upper ≤ p) :
    owner m start items p = owner m start items q := by
  rw [owner, owner, partitionPoint_congr]
  intro upper hupper
  exact decide_eq_decide.mpr ⟨fun hle => hle.trans hpq, h upper hupper⟩

theorem owner_dist_lt {start p q : Nat} {a : α} (hnodup : items.Nodup)
    (hstart : start ≤ p) (hp : owner m start items p = some a)
    (hq : owner m start items q = some a) : q < p + m a := by
  induction items generalizing start with
  | nil => simp at hp
  | cons b items ih =>
    rw [List.nodup_cons] at hnodup
    rw [owner_cons] at hp hq
    split at hp
    · obtain rfl : b = a := Option.some.inj hp
      split at hq
      · omega
      · exact absurd (owner_mem hq) hnodup.1
    · rename_i hge
      split at hq
      · obtain rfl : b = a := Option.some.inj hq
        exact absurd (owner_mem hp) hnodup.1
      · exact ih hnodup.2 (by omega) hp hq

theorem card_owner [DecidableEq α] (start : Nat) (items : List α) (a : α) :
    ∑ p ∈ Finset.Ico start (start + (items.map m).sum),
      (if owner m start items p = some a then 1 else 0) = items.count a * m a := by
  induction items generalizing start with
  | nil => simp
  | cons b items ih =>
    have hhead : ∑ p ∈ Finset.Ico start (start + m b),
        (if owner m start (b :: items) p = some a then 1 else 0) =
          if b = a then m a else 0 := by
      have hown : ∀ p ∈ Finset.Ico start (start + m b),
          (if owner m start (b :: items) p = some a then 1 else 0) =
            if b = a then 1 else 0 := by
        intro p hp
        rw [owner_cons, if_pos (Finset.mem_Ico.mp hp).2]
        simp
      rw [Finset.sum_congr rfl hown, Finset.sum_const, Nat.card_Ico]
      by_cases hab : b = a <;> simp [hab]
    have htail : ∑ p ∈ Finset.Ico (start + m b) (start + m b + (items.map m).sum),
        (if owner m start (b :: items) p = some a then 1 else 0) = items.count a * m a := by
      rw [← ih (start + m b)]
      refine Finset.sum_congr rfl fun p hp => ?_
      have hge : ¬p < start + m b := not_lt.mpr (Finset.mem_Ico.mp hp).1
      rw [owner_cons, if_neg hge]
    rw [List.map_cons, List.sum_cons, ← Nat.add_assoc,
      ← Finset.sum_Ico_consecutive _ (Nat.le_add_right start (m b)) (Nat.le_add_right _ _),
      hhead, htail, List.count_cons]
    by_cases hab : b = a
    · simp [hab, Nat.add_mul, Nat.add_comm]
    · simp [hab]

theorem ends_getLastD (start : Nat) (items : List α) :
    (ends m start items).getLastD start = start + (items.map m).sum := by
  induction items generalizing start with
  | nil => rfl
  | cons a items ih =>
    rw [ends, List.getLastD_cons, ih, List.map_cons, List.sum_cons, Nat.add_assoc]

end line

/-! ## Periods -/

theorem count_map_range {α : Type*} [DecidableEq α] (f : Nat → α) (copies : Nat) (a : α) :
    ((List.range copies).map f).count a =
      ∑ copy ∈ Finset.range copies, if f copy = a then 1 else 0 := by
  induction copies with
  | zero => rfl
  | succ copies ih =>
    rw [List.range_succ, List.map_append, List.count_append, ih, Finset.sum_range_succ]
    by_cases h : f copies = a <;> simp [h]

theorem sum_periods (period copies : Nat) (f : Nat → Nat) :
    ∑ offset ∈ Finset.range period, ∑ copy ∈ Finset.range copies, f (offset + copy * period) =
      ∑ point ∈ Finset.range (copies * period), f point := by
  rw [Finset.sum_comm]
  induction copies with
  | zero => simp
  | succ copies ih =>
    rw [Finset.sum_range_succ, ih, Nat.succ_mul, Finset.sum_range_add]
    congr 1
    exact Finset.sum_congr rfl fun offset _ => by rw [Nat.add_comm]

theorem drop_take_flatten {α : Type*} {k i : Nat} {blocks : List (List α)} {block : List α}
    (hlength : ∀ block ∈ blocks, block.length = k) (hi : blocks[i]? = some block) :
    (blocks.flatten.drop (i * k)).take k = block := by
  induction blocks generalizing i with
  | nil => simp at hi
  | cons first blocks ih =>
    obtain ⟨hfirst, hlength⟩ := List.forall_mem_cons.mp hlength
    rw [List.flatten_cons]
    cases i with
    | zero =>
      obtain rfl : first = block := by simpa using hi
      rw [Nat.zero_mul, List.drop_zero, ← hfirst, List.take_left]
    | succ i =>
      rw [Nat.succ_mul, Nat.add_comm, ← hfirst, List.drop_length_add_append, hfirst]
      exact ih hlength (by simpa using hi)

/-! ## Sorted cuts -/

/-- Drop the repeats of neighbours. -/
def dedupRuns : List Nat → List Nat
  | [] => []
  | [a] => [a]
  | a :: b :: l => if a = b then dedupRuns (b :: l) else a :: dedupRuns (b :: l)

theorem mem_dedupRuns {x : Nat} {l : List Nat} : x ∈ dedupRuns l ↔ x ∈ l := by
  induction l using dedupRuns.induct with
  | case1 => rfl
  | case2 a => rfl
  | case3 b l ih => rw [dedupRuns, if_pos rfl, ih]; simp
  | case4 a b l hne ih => rw [dedupRuns, if_neg hne, List.mem_cons, ih, ← List.mem_cons]

theorem pairwise_mergeSort_le (l : List Nat) : (l.mergeSort (· ≤ ·)).Pairwise (· ≤ ·) := by
  have hpairwise := @List.pairwise_mergeSort Nat (fun a b => decide (a ≤ b))
    (fun a b c hab hbc => by simp at *; omega) (fun a b => by simp; omega) l
  exact hpairwise.imp fun hab => by simpa using hab

theorem strict_dedupRuns {l : List Nat} (h : l.Pairwise (· ≤ ·)) :
    (dedupRuns l).Pairwise (· < ·) := by
  induction l using dedupRuns.induct with
  | case1 => exact .nil
  | case2 a => exact List.pairwise_singleton _ a
  | case3 b l ih =>
    rw [dedupRuns, if_pos rfl]
    exact ih h.of_cons
  | case4 a b l hne ih =>
    rw [dedupRuns, if_neg hne, List.pairwise_cons]
    refine ⟨fun x hx => ?_, ih h.of_cons⟩
    rw [mem_dedupRuns] at hx
    obtain ⟨hhead, htail⟩ := List.pairwise_cons.mp h
    have hab := hhead b List.mem_cons_self
    rcases List.mem_cons.mp hx with rfl | hx
    · omega
    · have := (List.pairwise_cons.mp htail).1 x hx
      omega

/-! ## Cells -/

/-- The cells between the cuts, each from its lower to its upper end. -/
def cells (lower : Nat) (uppers : List Nat) : List (Nat × Nat) := (lower :: uppers).zip uppers

@[simp] theorem length_cells (lower : Nat) (uppers : List Nat) :
    (cells lower uppers).length = uppers.length := by
  simp [cells]

theorem cells_cons (lower upper : Nat) (uppers : List Nat) :
    cells lower (upper :: uppers) = (lower, upper) :: cells upper uppers := rfl

variable {uppers : List Nat}

theorem le_getLastD {lower : Nat} (h : (lower :: uppers).Pairwise (· < ·)) :
    lower ≤ uppers.getLastD lower := by
  induction uppers generalizing lower with
  | nil => exact le_rfl
  | cons upper uppers ih =>
    obtain ⟨hlower, htail⟩ := List.pairwise_cons.mp h
    rw [List.getLastD_cons]
    exact (hlower upper List.mem_cons_self).le.trans (ih htail)

theorem cell_bounds {lower : Nat} {cell : Nat × Nat}
    (h : (lower :: uppers).Pairwise (· < ·)) (hcell : cell ∈ cells lower uppers) :
    lower ≤ cell.1 ∧ cell.1 < cell.2 ∧ cell.2 ≤ uppers.getLastD lower := by
  induction uppers generalizing lower with
  | nil => cases hcell
  | cons upper uppers ih =>
    obtain ⟨hlower, htail⟩ := List.pairwise_cons.mp h
    have hupper := hlower upper List.mem_cons_self
    rw [List.getLastD_cons]
    rcases List.mem_cons.mp hcell with rfl | hcell
    · exact ⟨le_rfl, hupper, le_getLastD htail⟩
    · obtain ⟨h1, h2, h3⟩ := ih htail hcell
      exact ⟨hupper.le.trans h1, h2, h3⟩

theorem cut_outside {lower b : Nat} {cell : Nat × Nat}
    (h : (lower :: uppers).Pairwise (· < ·)) (hcell : cell ∈ cells lower uppers)
    (hb : b ∈ lower :: uppers) : b ≤ cell.1 ∨ cell.2 ≤ b := by
  induction uppers generalizing lower with
  | nil => cases hcell
  | cons upper uppers ih =>
    obtain ⟨hlower, htail⟩ := List.pairwise_cons.mp h
    have hupper := hlower upper List.mem_cons_self
    rcases List.mem_cons.mp hcell with rfl | hlater
    · -- the first cell: every later cut is at or behind its upper end
      rcases List.mem_cons.mp hb with rfl | hb
      · exact .inl le_rfl
      · rcases List.mem_cons.mp hb with rfl | hb
        · exact .inr le_rfl
        · exact .inr ((List.pairwise_cons.mp htail).1 b hb).le
    · rcases List.mem_cons.mp hb with rfl | hb
      · exact .inl (hupper.le.trans (cell_bounds htail hlater).1)
      · exact ih htail hlater hb

theorem sum_cells {lower : Nat} (h : (lower :: uppers).Pairwise (· < ·))
    (f : Nat → Nat)
    (hconst : ∀ cell ∈ cells lower uppers, ∀ x, cell.1 ≤ x → x < cell.2 → f x = f cell.1) :
    ((cells lower uppers).map fun cell => (cell.2 - cell.1) * f cell.1).sum =
      ∑ x ∈ Finset.Ico lower (uppers.getLastD lower), f x := by
  induction uppers generalizing lower with
  | nil => simp [cells]
  | cons upper uppers ih =>
    rw [cells_cons] at hconst
    obtain ⟨hlower, htail⟩ := List.pairwise_cons.mp h
    have hfirst : ∑ x ∈ Finset.Ico lower upper, f x = (upper - lower) * f lower := by
      rw [Finset.sum_congr rfl fun x hx => hconst (lower, upper) List.mem_cons_self x
        (Finset.mem_Ico.mp hx).1 (Finset.mem_Ico.mp hx).2]
      simp
    rw [cells_cons, List.map_cons, List.sum_cons,
      ih htail fun cell hcell => hconst cell (List.mem_cons_of_mem _ hcell), ← hfirst,
      List.getLastD_cons, Finset.sum_Ico_consecutive _ (hlower upper List.mem_cons_self).le
        (le_getLastD htail)]

theorem partitionPoint_cell {lower : Nat} {offset : Nat} (hle : lower ≤ offset)
    (hlt : offset < uppers.getLastD lower) :
    ∃ cell, (cells lower uppers)[partitionPoint (fun upper => decide (upper ≤ offset)) uppers]? =
      some cell ∧ cell.1 ≤ offset ∧ offset < cell.2 := by
  induction uppers generalizing lower with
  | nil => exact absurd hlt (by simp; omega)
  | cons upper uppers ih =>
    rw [partitionPoint, List.takeWhile_cons, cells_cons]
    by_cases h : upper ≤ offset
    · rw [if_pos (by simpa using h), List.length_cons, List.getElem?_cons_succ]
      exact ih h (by rwa [List.getLastD_cons] at hlt)
    · rw [if_neg (by simpa using h)]
      exact ⟨(lower, upper), rfl, hle, by show offset < upper; omega⟩

end Systematic
