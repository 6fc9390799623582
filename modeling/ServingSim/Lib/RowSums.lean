import Mathlib.Tactic
import Mathlib.Algebra.BigOperators.Intervals

/-
  Sums over consecutive rows, and the closed forms of the usual ones.

  A causal request of `append` rows behind `cached` ones weighs its rows `k` with
  `cached < k ≤ cached + append`. Such a sum is the difference of two prefix sums, so it
  does not care how the rows are cut into chunks. The prefix sums have closed forms where
  the weight is the row, a quotient of the row, or either one saturated at a cap.
-/

namespace RowSums

open Finset

/-! ## Chunks -/

/-- The work of chunks one behind the other, each a function of its rows and of the rows
before it. -/
def chunked {M : Type*} [AddCommMonoid M] (work : ℕ → ℕ → M) : ℕ → List ℕ → M
  | _, [] => 0
  | cached, append :: chunks => work append cached + chunked work (cached + append) chunks

theorem chunked_eq_within {M : Type*} [AddCommMonoid M] {within : ℕ → ℕ → Prop}
    {work : ℕ → ℕ → M} {f : ℕ → M}
    (h : ∀ append cached, within append cached →
      work append cached = ∑ k ∈ Ioc cached (cached + append), f k)
    (hparts : ∀ append more cached, within (append + more) cached →
      within append cached ∧ within more (cached + append))
    (cached : ℕ) (chunks : List ℕ) (hwithin : within chunks.sum cached) :
    chunked work cached chunks = ∑ k ∈ Ioc cached (cached + chunks.sum), f k := by
  induction chunks generalizing cached with
  | nil => simp [chunked]
  | cons append chunks ih =>
    obtain ⟨hfirst, hrest⟩ := hparts append chunks.sum cached hwithin
    rw [chunked, h append cached hfirst, ih _ hrest, List.sum_cons, ← Nat.add_assoc]
    exact sum_Ioc_consecutive f (Nat.le_add_right _ _) (Nat.le_add_right _ _)

section

variable {M : Type*} [AddCommMonoid M] {work : ℕ → ℕ → M} {f : ℕ → M}
  (h : ∀ append cached, work append cached = ∑ k ∈ Ioc cached (cached + append), f k) (cached : ℕ)
  (chunks : List ℕ)

include M work f h cached chunks

theorem chunked_eq :
    chunked work cached chunks = ∑ k ∈ Ioc cached (cached + chunks.sum), f k :=
  @chunked_eq_within _ _ (fun _ _ => True) _ _ (fun append cached _ => h append cached)
    (fun _ _ _ _ => ⟨trivial, trivial⟩) cached chunks trivial

theorem chunked_whole :
    chunked work cached chunks = work chunks.sum cached := by
  rw [chunked_eq h, h]

end

/-- A request's work is the sum of its rows' weights, however it is cut into chunks. -/
structure RowByRow {M : Type*} [AddCommMonoid M] (work : ℕ → ℕ → M) (f : ℕ → M) : Prop where
  rows : ∀ append cached, work append cached = ∑ k ∈ Ioc cached (cached + append), f k
  chunks : ∀ cached chunks, chunked work cached chunks = work chunks.sum cached

/-- The same of the requests within what the work can count. -/
structure RowByRowWithin {M : Type*} [AddCommMonoid M] (within : ℕ → ℕ → Prop)
    (work : ℕ → ℕ → M) (f : ℕ → M) : Prop where
  rows : ∀ append cached, within append cached →
    work append cached = ∑ k ∈ Ioc cached (cached + append), f k
  chunks : ∀ cached chunks, within chunks.sum cached →
    chunked work cached chunks = work chunks.sum cached

theorem RowByRowWithin.of_rows {M : Type*} [AddCommMonoid M] {within : ℕ → ℕ → Prop}
    {work : ℕ → ℕ → M} {f : ℕ → M}
    (h : ∀ append cached, within append cached →
      work append cached = ∑ k ∈ Ioc cached (cached + append), f k)
    (hparts : ∀ append more cached, within (append + more) cached →
      within append cached ∧ within more (cached + append)) :
    RowByRowWithin within work f where
  rows := h
  chunks cached chunks hwithin := by
    rw [chunked_eq_within h hparts cached chunks hwithin, h _ _ hwithin]

theorem prefix_parts {f : ℕ → ℕ} {bound : ℕ} (append more cached : ℕ)
    (h : ∑ k ∈ Ioc 0 (cached + (append + more)), f k ≤ bound) :
    ∑ k ∈ Ioc 0 (cached + append), f k ≤ bound ∧
      ∑ k ∈ Ioc 0 (cached + append + more), f k ≤ bound := by
  rw [← Nat.add_assoc] at h
  exact ⟨(sum_le_sum_of_subset (Ioc_subset_Ioc_right (Nat.le_add_right _ _))).trans h, h⟩

theorem own_parts {f : ℕ → ℕ} {bound : ℕ} (append more cached : ℕ)
    (h : ∑ k ∈ Ioc cached (cached + (append + more)), f k ≤ bound) :
    ∑ k ∈ Ioc cached (cached + append), f k ≤ bound ∧
      ∑ k ∈ Ioc (cached + append) (cached + append + more), f k ≤ bound := by
  rw [← Nat.add_assoc, ← sum_Ioc_consecutive f (Nat.le_add_right cached append)
    (Nat.le_add_right (cached + append) more)] at h
  exact ⟨(Nat.le_add_right _ _).trans h, (Nat.le_add_left _ _).trans h⟩

theorem RowByRow.of_rows {M : Type*} [AddCommMonoid M] {work : ℕ → ℕ → M} {f : ℕ → M}
    (h : ∀ append cached, work append cached = ∑ k ∈ Ioc cached (cached + append), f k) :
    RowByRow work f :=
  ⟨h, chunked_whole h⟩

/-- The rows behind `cached` are a difference of prefix sums. -/
theorem sum_rows_eq_sub {M : Type*} [AddCommGroup M] (f : ℕ → M) (cached append : ℕ) :
    ∑ k ∈ Ioc cached (cached + append), f k =
      ∑ k ∈ Ioc 0 (cached + append), f k - ∑ k ∈ Ioc 0 cached, f k := by
  rw [← sum_Ioc_consecutive f (Nat.zero_le cached) (Nat.le_add_right cached append)]
  exact (add_sub_cancel_left _ _).symm

theorem RowByRow.of_cumulative {M : Type*} [AddCommGroup M] {total : ℕ → M} {f : ℕ → M}
    (h : ∀ n, total n = ∑ k ∈ Ioc 0 n, f k) :
    RowByRow (fun append cached => total (cached + append) - total cached) f :=
  .of_rows fun append cached => by rw [h, h, sum_rows_eq_sub]

/-! ## Closed forms -/

theorem two_mul_sum_rows (n : ℕ) : 2 * ∑ k ∈ Ioc 0 n, k = n * (n + 1) := by
  induction n with
  | zero => rfl
  | succ n ih =>
    rw [sum_Ioc_succ_top (Nat.zero_le n), Nat.mul_add, ih]
    ring

/-- The rows behind `cached`, uncapped. -/
theorem sum_rows_behind (cached append : ℕ) : ∑ k ∈ Ioc cached (cached + append), (k : ℚ) =
      (append : ℚ) * cached + (append : ℚ) * (append + 1) / 2 := by
  induction append with
  | zero => simp
  | succ append ih =>
    rw [← Nat.add_assoc, sum_Ioc_succ_top (Nat.le_add_right cached append), ih]
    push_cast
    ring

/-- Quotients: whole blocks of `ratio` rows, and the rows of the open one. -/
theorem two_mul_sum_div (ratio n : ℕ) : 2 * ∑ k ∈ Ioc 0 n, ((k / ratio : ℕ) : ℤ) =
      ratio * (n / ratio : ℕ) * ((n / ratio : ℕ) - 1) +
        2 * ((n / ratio : ℕ) * (n + 1 - (n / ratio : ℕ) * ratio)) := by
  induction n with
  | zero => simp
  | succ n ih =>
    rw [sum_Ioc_succ_top (Nat.zero_le n), mul_add, ih, Nat.succ_div]
    split
    · next hdvd =>
      -- the row completes a block
      have hrow : (n : ℤ) + 1 = ratio * ((n / ratio : ℕ) + 1) := by
        have hblock : n + 1 = ratio * ((n + 1) / ratio) := (Nat.mul_div_cancel' hdvd).symm
        rw [Nat.succ_div_of_dvd hdvd] at hblock
        exact_mod_cast hblock
      generalize n / ratio = m at hrow ⊢
      push_cast
      linear_combination -2 * hrow
    · generalize n / ratio = m
      push_cast
      ring

/-- A weight that no longer grows from row `stop` on. -/
theorem sum_saturated {M : Type*} [AddCommMonoid M] {f g : ℕ → M} {stop : ℕ} {c : M}
    (hbelow : ∀ k < stop, f k = g k) (habove : ∀ k, stop ≤ k → f k = c) (hstop : 0 < stop)
    (n : ℕ) :
    ∑ k ∈ Ioc 0 n, f k =
      if n < stop then ∑ k ∈ Ioc 0 n, g k
      else ∑ k ∈ Ioc 0 (stop - 1), g k + (n + 1 - stop) • c := by
  split
  · next hn =>
    exact sum_congr rfl fun k hk => hbelow k ((mem_Ioc.mp hk).2.trans_lt hn)
  · next hn =>
    rw [← sum_Ioc_consecutive f (Nat.zero_le (stop - 1)) (by omega : stop - 1 ≤ n)]
    have hhead : ∑ k ∈ Ioc 0 (stop - 1), f k = ∑ k ∈ Ioc 0 (stop - 1), g k :=
      sum_congr rfl fun k hk => hbelow k (by have := (mem_Ioc.mp hk).2; omega)
    have htail : ∑ k ∈ Ioc (stop - 1) n, f k = ∑ _k ∈ Ioc (stop - 1) n, c :=
      sum_congr rfl fun k hk => habove k (by have := (mem_Ioc.mp hk).1; omega)
    rw [hhead, htail, sum_const, Nat.card_Ioc]
    congr 2
    omega

end RowSums
