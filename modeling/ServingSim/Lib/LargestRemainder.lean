import Mathlib.Algebra.BigOperators.Group.List.Basic
import Mathlib.Data.List.GetD
import Mathlib.Data.List.Perm.Basic
import Mathlib.Data.Nat.Count
import Mathlib.Data.Int.CardIntervalMod
import Mathlib.Tactic

/-
  Rounding shares to whole numbers by largest remainders.

  Shares are divided by a common divisor. Everybody gets the floor of his share, and
  what the floors leave over is handed out one by one, the largest remainder first.
  The order is total and has no ties (equal remainders go by index), so every sort
  gives the same list, a stable one or not.
-/

namespace LargestRemainder

/-! ## Rankings -/

/-- A comparison that any list has exactly one sorted order for. -/
structure Ranking {α : Type*} (before : α → α → Bool) : Prop where
  trans : ∀ a b c, before a b → before b c → before a c
  total : ∀ a b, before a b || before b a
  antisymm : ∀ a b, before a b → before b a → a = b

namespace Ranking

variable {α : Type*} {before : α → α → Bool} (h : Ranking before)
include h

theorem sorted (l : List α) : (l.mergeSort before).Pairwise (fun a b => before a b) :=
  List.pairwise_mergeSort h.trans h.total l

theorem eq_mergeSort {l sorted : List α} (hperm : sorted.Perm l)
    (hsorted : sorted.Pairwise (fun a b => before a b)) : sorted = l.mergeSort before := by
  apply List.Perm.eq_of_pairwise _ hsorted (h.sorted l)
  · exact hperm.trans (List.mergeSort_perm l before).symm
  · intro a b _ _ hab hba
    exact h.antisymm a b hab hba

theorem mergeSort_eq_insertionSort (l : List α) :
    l.mergeSort before = l.insertionSort (fun a b => before a b) := by
  have : IsTrans α (fun a b => before a b = true) := ⟨h.trans⟩
  have : Std.Total (fun a b => before a b = true) := ⟨fun a b => by simpa using h.total a b⟩
  symm
  exact h.eq_mergeSort (List.perm_insertionSort _ l) (List.pairwise_insertionSort _ l)

theorem mergeSort_eq_of_perm {l l' : List α} (hperm : l.Perm l') :
    l.mergeSort before = l'.mergeSort before :=
  h.eq_mergeSort ((List.mergeSort_perm l before).trans hperm) (h.sorted l)

theorem mem_take_of_sorted [DecidableEq α] {l : List α} (hnodup : l.Nodup)
    (hsorted : l.Pairwise (fun a b => before a b)) (k : Nat) (a : α) :
    a ∈ l.take k ↔ a ∈ l ∧ l.countP (fun b => b ≠ a && before b a) < k := by
  induction l generalizing k with
  | nil => simp
  | cons b l ih =>
    obtain ⟨hb, hl⟩ := List.nodup_cons.1 hnodup
    obtain ⟨hfirst, htail⟩ := List.pairwise_cons.1 hsorted
    cases k with
    | zero => simp
    | succ k =>
      rw [List.take_succ_cons, List.mem_cons, ih hl htail, List.countP_cons]
      by_cases hab : a = b
      · -- the head comes before everything behind it, so nothing there comes before it
        subst hab
        have hnone : l.countP (fun c => c ≠ a && before c a) = 0 := by
          rw [List.countP_eq_zero]
          intro c hc
          simp only [ne_eq, decide_not, Bool.and_eq_true, Bool.not_eq_eq_eq_not, Bool.not_true,
            decide_eq_false_iff_not, not_and]
          intro hne hca
          exact hne (h.antisymm c a hca (hfirst c hc))
        rw [hnone]
        simp
      · have hba : b ≠ a := fun e => hab e.symm
        constructor
        · intro hmem
          obtain hmem | ⟨hmem, hlt⟩ := hmem
          · exact absurd hmem hab
          · refine ⟨List.mem_cons_of_mem b hmem, ?_⟩
            have : (if (b ≠ a && before b a) = true then 1 else 0) ≤ 1 := by split <;> omega
            omega
        · intro hmem
          obtain ⟨hmem, hlt⟩ := hmem
          have hal : a ∈ l := (List.mem_cons.1 hmem).resolve_left hab
          have hone : (b ≠ a && before b a) = true := by simp [hba, hfirst a hal]
          rw [if_pos hone] at hlt
          exact Or.inr ⟨hal, by omega⟩

/-- Place below `k` in the ranking: fewer than `k` others come first. -/
theorem mem_take_iff [DecidableEq α] {l : List α} (hnodup : l.Nodup) (k : Nat) (a : α) :
    a ∈ (l.mergeSort before).take k ↔ a ∈ l ∧ l.countP (fun b => b ≠ a && before b a) < k := by
  have hperm := List.mergeSort_perm l before
  rw [h.mem_take_of_sorted (hperm.nodup_iff.2 hnodup) (h.sorted l), hperm.mem_iff, hperm.countP_eq]

end Ranking

/-! ## The larger key first -/

/-- The larger key first, equal keys in the order of the indices. -/
def largerFirst (key : Nat → Nat) (left right : Nat) : Bool :=
  if key left ≠ key right then key right < key left else left ≤ right

theorem largerFirst_ranking (key : Nat → Nat) : Ranking (largerFirst key) where
  trans a b c := by
    simp only [largerFirst]
    split <;> split <;> split <;> simp only [decide_eq_true_eq] <;> omega
  total a b := by
    simp only [largerFirst, Bool.or_eq_true]
    split <;> split <;> simp only [decide_eq_true_eq] <;> omega
  antisymm a b := by
    simp only [largerFirst]
    split <;> split <;> simp only [decide_eq_true_eq] <;> omega

theorem largerFirst_of_lt {key : Nat → Nat} {left right : Nat} (h : key right < key left) :
    largerFirst key left right = true := by
  simp only [largerFirst]
  rw [if_pos (by omega)]
  exact decide_eq_true h

theorem key_le_of_largerFirst {key : Nat → Nat} {left right : Nat}
    (h : largerFirst key left right = true) : key right ≤ key left := by
  simp only [largerFirst] at h
  split at h
  · exact Nat.le_of_lt (of_decide_eq_true h)
  · omega

/-! ## Handing out one by one -/

/-- One more for each of the chosen places. -/
def give (shares : List Nat) (places : List Nat) : List Nat :=
  places.foldl (fun shares place => shares.modify place (· + 1)) shares

@[simp] theorem length_give (shares places : List Nat) :
    (give shares places).length = shares.length := by
  unfold give
  induction places generalizing shares with
  | nil => rfl
  | cons place places ih => rw [List.foldl_cons, ih, List.length_modify]

theorem getD_give {shares places : List Nat} {i : Nat} (hi : i < shares.length) :
    (give shares places).getD i 0 = shares.getD i 0 + places.count i := by
  unfold give
  induction places generalizing shares with
  | nil => simp
  | cons place places ih =>
    rw [List.foldl_cons, ih (by simpa using hi), List.count_cons]
    simp only [List.getD_eq_getElem?_getD, List.getElem?_modify, List.getElem?_eq_getElem hi]
    by_cases hp : place = i
    · subst hp
      simp
      omega
    · simp [hp]

theorem sum_modify_succ {shares : List Nat} {place : Nat} (h : place < shares.length) :
    (shares.modify place (· + 1)).sum = shares.sum + 1 := by
  induction shares generalizing place with
  | nil => simp at h
  | cons share shares ih =>
    cases place with
    | zero =>
      simp only [List.modify_zero_cons, List.sum_cons]
      omega
    | succ place =>
      simp only [List.modify_succ_cons, List.sum_cons]
      rw [ih (by simpa using h)]
      omega

theorem sum_give {shares places : List Nat} (h : ∀ place ∈ places, place < shares.length) :
    (give shares places).sum = shares.sum + places.length := by
  unfold give
  induction places generalizing shares with
  | nil => rfl
  | cons place places ih =>
    have hplace := h place List.mem_cons_self
    rw [List.foldl_cons, ih, sum_modify_succ hplace, List.length_cons]
    · omega
    · intro other hother
      rw [List.length_modify]
      exact h other (List.mem_cons_of_mem place hother)

/-! ## Floors and remainders -/

theorem sum_div_add_sum_mod (d : Nat) (shares : List Nat) :
    d * (shares.map (· / d)).sum + (shares.map (· % d)).sum = shares.sum := by
  induction shares with
  | nil => rfl
  | cons share shares ih =>
    simp only [List.map_cons, List.sum_cons, Nat.mul_add]
    have := Nat.div_add_mod share d
    omega

theorem sum_le_countP_pos {d : Nat} {remainders : List Nat} (h : ∀ r ∈ remainders, r < d) :
    remainders.sum ≤ (remainders.countP (0 < ·)) * (d - 1) := by
  induction remainders with
  | nil => simp
  | cons r remainders ih =>
    have hr := h r List.mem_cons_self
    have htail := ih fun s hs => h s (List.mem_cons_of_mem r hs)
    rw [List.sum_cons, List.countP_cons]
    by_cases hpos : 0 < r
    · rw [if_pos (by simpa using hpos), Nat.add_mul]
      omega
    · rw [if_neg (by simpa using hpos), Nat.add_zero]
      omega

theorem le_countP_pos {d quota : Nat} {remainders : List Nat} (hd : 0 < d)
    (h : ∀ r ∈ remainders, r < d) (hsum : remainders.sum = quota * d) :
    quota ≤ remainders.countP (0 < ·) := by
  have hle := sum_le_countP_pos h
  by_contra hlt
  have hmul : (remainders.countP (0 < ·)) * (d - 1) ≤ (quota - 1) * (d - 1) :=
    Nat.mul_le_mul_right (d - 1) (by omega)
  cases quota with
  | zero => omega
  | succ quota =>
    cases d with
    | zero => omega
    | succ d =>
      simp only [Nat.add_sub_cancel] at hmul hle
      have : (quota + 1) * (d + 1) = quota * d + quota + d + 1 := by ring
      omega

/-- Whoever gets one of the `quota` that the floors leave over has a remainder. -/
theorem residual_pos_of_mem_take (residual : Nat → Nat) {places : List Nat} (hnodup : places.Nodup)
    {d quota i : Nat} (hlt : ∀ j, residual j < d) (hsum : (places.map residual).sum = quota * d)
    (hi : i ∈ (places.mergeSort (largerFirst residual)).take quota) :
    0 < residual i := by
  have hquota := le_countP_pos (Nat.zero_lt_of_lt (hlt 0)) (by
    intro r hr
    obtain ⟨j, _, rfl⟩ := List.mem_map.1 hr
    exact hlt j) hsum
  obtain ⟨_, hcount⟩ := ((largerFirst_ranking residual).mem_take_iff hnodup quota i).1 hi
  by_contra hzero
  -- everyone with a remainder comes before one who has none
  have hmono : places.countP (fun j => decide (0 < residual j)) ≤
      places.countP (fun j => j ≠ i && largerFirst residual j i) := by
    apply List.countP_mono_left
    intro j _ hj
    have hpos : 0 < residual j := of_decide_eq_true hj
    have hne : j ≠ i := by
      intro heq
      subst heq
      exact hzero hpos
    simp only [ne_eq, hne, not_false_eq_true, decide_true, Bool.true_and]
    exact largerFirst_of_lt (by omega)
  rw [List.countP_map] at hquota
  have : places.countP ((fun r => decide (0 < r)) ∘ residual) =
      places.countP (fun j => decide (0 < residual j)) := rfl
  omega

theorem quota_le_length {residual : Nat → Nat} {places : List Nat} {d quota : Nat}
    (hlt : ∀ j, residual j < d) (hsum : (places.map residual).sum = quota * d) :
    quota ≤ places.length := by
  have hquota := le_countP_pos (Nat.zero_lt_of_lt (hlt 0)) (by
    intro r hr
    obtain ⟨j, _, rfl⟩ := List.mem_map.1 hr
    exact hlt j) hsum
  have hle := List.countP_le_length (p := fun r => decide (0 < r))
    (l := places.map residual)
  rw [List.length_map] at hle
  omega

/-! ## Dealing round and round -/

/-- The places served when `copies` are dealt in the order of a list, again and again. -/
def dealt (order : List Nat) (copies : Nat) : List Nat :=
  (List.range copies).map fun cursor => order.getD (cursor % order.length) 0

theorem mem_dealt {order : List Nat} {copies i : Nat} (horder : order ≠ [])
    (hi : i ∈ dealt order copies) : i ∈ order := by
  obtain ⟨cursor, _, rfl⟩ := List.mem_map.1 hi
  have hlt : cursor % order.length < order.length := Nat.mod_lt _ (List.length_pos_iff.2 horder)
  rw [List.getD_eq_getElem _ _ hlt]
  exact List.getElem_mem hlt

/-- The place at `p` gets the quotient, and one more if `p` is below the remainder. -/
theorem count_dealt {order : List Nat} (hnodup : order.Nodup) {p : Nat} (hp : p < order.length)
    (copies : Nat) :
    (dealt order copies).count (order.getD p 0) =
      copies / order.length + if p < copies % order.length then 1 else 0 := by
  have hpos : 0 < order.length := by omega
  unfold dealt
  rw [List.count_eq_countP, List.countP_map]
  have hcongr : (List.range copies).countP
        ((fun i => i == order.getD p 0) ∘ fun cursor => order.getD (cursor % order.length) 0) =
      (List.range copies).countP fun cursor => decide (cursor ≡ p [MOD order.length]) := by
    apply List.countP_congr
    intro cursor _
    have hlt : cursor % order.length < order.length := Nat.mod_lt _ hpos
    simp only [Function.comp_apply, beq_iff_eq, decide_eq_true_eq, Nat.ModEq,
      List.getD_eq_getElem _ _ hlt, List.getD_eq_getElem _ _ hp, Nat.mod_eq_of_lt hp]
    exact hnodup.getElem_inj_iff
  rw [hcongr]
  have hcard := Nat.count_modEq_card copies hpos p
  rw [Nat.mod_eq_of_lt hp] at hcard
  rw [← hcard]
  rfl

end LargestRemainder
