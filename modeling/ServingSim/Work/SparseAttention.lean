import Mathlib.Data.Rat.Floor
import ServingSim.Common.Ensure
import ServingSim.Lib.Binary64
import ServingSim.Lib.RowSums

/-
  The keys that sparse attention reads, in constant time (`model/work/attention`).

  A query at position `k` of its request, itself included, sees at most `k` keys. The
  mechanisms see fewer: a window, a top-k, one compressed entry per few positions, or the
  best pools with the open one. The floors need the sum over a request's queries, which
  each mechanism writes as a difference of a cumulative sum in closed form, switching at
  the position where its cap is reached.

  What is proved:
    1. `closed_forms` — so a request's work is the sum over its own queries, and a prefill
       has the same work in any chunks: always for the forms in integers, and for the two
       that return floats while their sums are at most 2^53.
    2. `window_rounds` — beyond it their roundings show.
    3. `selectedPairs_rows`, `selectedPairs_causal` — what a layer and a batch attend is the
       sum over their own rows.

  Integers are unbounded; floats round, and mix with integers as the language mixes them.
  The forms also take arrays of 64-bit integers, which are not modelled.
-/

namespace ServingSim

namespace SparseAttention

open Finset RowSums

open Binary64 (Number Fits nearest_of_fits fits_natCast)

/-! ## Pooled top-k -/

/-- Complete pools seen by the first `n` positions. -/
def pooledPrefixSum (n pool : ℤ) : ℤ :=
  let full := max n 0 / pool
  let remainder := max n 0 % pool
  pool * full * (full - 1) / 2 + full * (remainder + 1)

/-- Keys selected by the first `n` positions. -/
def selectedPrefixSum (n topk pool : ℤ) : ℤ :=
  let n := max n 0
  let threshold := topk + pool - 1
  let dense := min n threshold
  let remainderSum := fun m : ℤ => m * (m + 1) / 2 - pool * pooledPrefixSum m pool
  -- equal to the threshold, so the tail is 0, up to the threshold
  let past := max n threshold
  let tail := topk * (past - threshold) + remainderSum past - remainderSum threshold
  dense * (dense + 1) / 2 + tail

/-! ## Sliding windows -/

/-- An integer function at a real point, linear between its neighbours. -/
def interpolate (function : ℤ → ℤ) (x : Number) : Number :=
  let low := x.floor
  let value := Number.float (Number.int (function low)).toFloat
  let fraction := x - .int low
  if fraction.value ≠ 0 then value + fraction * (.int (function (low + 1)) - value) else value

/-- Keys visible to the first `n` positions; without a cap the causal triangle. -/
def cappedCumulative (n : Number) (cap : Option ℤ) : Number :=
  match cap with
  | none => n * (n + .int 1) / .float 2
  | some cap =>
    let exact' := fun m : ℤ =>
      if m ≤ cap then m * (m + 1) / 2 else cap * (cap + 1) / 2 + (m - cap) * cap
    interpolate exact' n

/-- Keys that a windowed layer's request sees. -/
def windowPairs (window append cached : ℤ) : Number :=
  cappedCumulative (.int (cached + append)) (some window) -
    cappedCumulative (.int cached) (some window)

/-! ## Compressed entries -/

def windowCumulative (n window : ℤ) : ℤ :=
  if n ≤ window then n * (n + 1) / 2 else window * (window + 1) / 2 + (n - window) * window

/-- Compressed entries visible to the first `n` positions. -/
def floorSum (n ratio : ℤ) : ℤ :=
  let m := n / ratio
  ratio * m * (m - 1) / 2 + m * (n - m * ratio + 1)

def cappedFloorSum (n ratio cap : ℤ) : ℤ :=
  -- the first position whose visible count reaches the cap
  let saturation := cap * ratio
  if n < saturation then floorSum n ratio
  else floorSum (saturation - 1) ratio + (n - saturation + 1) * cap

/-- `count` equal requests of `append` queries behind `cached` tokens. -/
structure Request where
  count : ℚ
  append : ℚ
  cached : ℚ

/-- The same interpolation, rounded at its end only. -/
def interpolateWhole (function : ℤ → ℤ) (x : Number) : Number :=
  let low := x.floor
  let value := Number.int (function low)
  let fraction := x - .int low
  let value :=
    if fraction.value ≠ 0 then value + fraction * (.int (function (low + 1)) - value) else value
  .float value.toFloat

def cumulativeDelta (function : ℤ → ℤ) (request : Request) : Number :=
  let last := interpolateWhole function (.float request.cached + .float request.append)
  last - interpolateWhole function (.float request.cached)

/-- A layer's window and compressed cache. -/
structure DeepseekV41Attention where
  window : ℤ
  compressRatio : ℤ
  indexTopk : ℤ

/-- Pairs attended: window keys, and the top-k compressed keys of a layer that has any. -/
def DeepseekV41Attention.selectedPairs (layer : DeepseekV41Attention) (request : Request) :
    Number :=
  let pairs := cumulativeDelta (fun n => windowCumulative n layer.window) request
  if layer.compressRatio ≠ 0 then
    pairs + cumulativeDelta
      (fun n => cappedFloorSum n layer.compressRatio layer.indexTopk) request
  else pairs

/-! ## Top-k -/

/-- New queries attending to keys; `multiplicity` equal ones. -/
structure AttnInteraction where
  numQuery : ℤ
  numKey : ℤ
  numCachedKey : ℤ
  mask : String
  multiplicity : Number := .int 1

/-- The capped causal triangle. -/
def causalPairs (selected q cached : ℤ) : Number :=
  let uncapped := min q (max 0 (selected - cached))
  let pairs := Number.int (uncapped * cached) + .int (uncapped * (uncapped + 1)) / .int 2
  pairs + .int ((q - uncapped) * selected)

def addSelected (selected : ℤ) (total : Number) (interaction : AttnInteraction) :
    Except String Number :=
  if interaction.mask = "causal" then
    .ok (total + interaction.multiplicity *
      causalPairs selected interaction.numQuery interaction.numCachedKey)
  else if interaction.mask = "full" ∨ interaction.mask = "cross" then
    .ok (total + interaction.multiplicity * .int interaction.numQuery *
      .int (min selected interaction.numKey))
  else .error ("unknown attention mask '" ++ interaction.mask ++ "'")

/-- The keys that a workload's queries select, at most `selected` each. -/
def selectedPairs (selected : ℤ) (attn : List AttnInteraction) : Except String ℚ := do
  let total ← attn.foldlM (addSelected selected) (.float 0)
  return total.toFloat

/-! ## Rows -/

theorem sum_rows (n : ℕ) : ∑ k ∈ Ioc 0 n, (k : ℤ) = (n : ℤ) * (n + 1) / 2 := by
  have h : (2 : ℤ) * ∑ k ∈ Ioc 0 n, (k : ℤ) = n * (n + 1) := by
    have hrows := two_mul_sum_rows n
    zify at hrows
    exact hrows
  rw [← h, Int.mul_ediv_cancel_left _ two_ne_zero]

theorem floorSum_eq (n ratio : ℕ) : floorSum n ratio = ∑ k ∈ Ioc 0 n, ((k / ratio : ℕ) : ℤ) := by
  have h := two_mul_sum_div ratio n
  rw [floorSum]
  simp only [← Int.natCast_ediv]
  generalize ((n / ratio : ℕ) : ℤ) = m at h ⊢
  generalize ∑ k ∈ Ioc 0 n, ((k / ratio : ℕ) : ℤ) = total at h ⊢
  have hwhole : (ratio : ℤ) * m * (m - 1) = 2 * (total - m * (n + 1 - m * ratio)) := by
    linear_combination -h
  rw [hwhole, Int.mul_ediv_cancel_left _ two_ne_zero]
  ring

theorem pooledPrefixSum_floorSum (n pool : ℕ) : pooledPrefixSum n pool = floorSum n pool := by
  have hn : max (n : ℤ) 0 = n := max_eq_left (Int.natCast_nonneg n)
  have hrest : (n : ℤ) % pool = n - (n : ℤ) / pool * pool := by
    rw [Int.emod_def, mul_comm]
  rw [pooledPrefixSum, floorSum]
  simp only [hn, hrest]

theorem pooledPrefixSum_eq (n pool : ℕ) :
    pooledPrefixSum n pool = ∑ k ∈ Ioc 0 n, ((k / pool : ℕ) : ℤ) := by
  rw [pooledPrefixSum_floorSum, floorSum_eq]

theorem sum_mod (n pool : ℕ) : ∑ k ∈ Ioc 0 n, ((k % pool : ℕ) : ℤ) =
      (n : ℤ) * (n + 1) / 2 - pool * pooledPrefixSum n pool := by
  rw [pooledPrefixSum_eq, ← sum_rows, mul_sum, ← sum_sub_distrib]
  refine sum_congr rfl fun k _ => ?_
  push_cast
  rw [Int.emod_def]

theorem selectedPrefixSum_eq {topk pool : ℕ} (hpool : 1 ≤ pool) (htopk : pool ∣ topk) (n : ℕ) :
    selectedPrefixSum n topk pool = ∑ k ∈ Ioc 0 n, ((min k (topk + k % pool) : ℕ) : ℤ) := by
  obtain ⟨groups, rfl⟩ := htopk
  have hthreshold : ((pool * groups : ℕ) : ℤ) + pool - 1 = (pool * groups + pool - 1 : ℕ) := by
    omega
  have hn : max (n : ℤ) 0 = n := max_eq_left (Int.natCast_nonneg n)
  -- a row keeps all its keys while at most `groups` of its pools are complete
  have hrow : ∀ k, k ≤ pool * groups + k % pool ↔ k ≤ pool * groups + pool - 1 := by
    intro k
    have hdiv := Nat.div_add_mod k pool
    have hmod := Nat.mod_lt k hpool
    constructor
    · omega
    · intro h
      have hgroups : k / pool ≤ groups := by
        by_contra hmore
        have := Nat.mul_le_mul_left pool (not_le.mp hmore)
        rw [Nat.mul_succ] at this
        omega
      have := Nat.mul_le_mul_left pool hgroups
      omega
  rw [selectedPrefixSum]
  simp only [hthreshold, hn]
  generalize pool * groups + pool - 1 = threshold at hrow ⊢
  rcases le_total n threshold with hle | hge
  · rw [min_eq_left (by exact_mod_cast hle), max_eq_right (by exact_mod_cast hle), sub_self,
      mul_zero, zero_add, sub_self, add_zero, ← sum_rows]
    refine sum_congr rfl fun k hk => ?_
    rw [min_eq_left ((hrow k).mpr ((mem_Ioc.mp hk).2.trans hle))]
  · rw [min_eq_right (by exact_mod_cast hge), max_eq_left (by exact_mod_cast hge), ← sum_mod,
      ← sum_mod, ← sum_rows,
      ← sum_Ioc_consecutive (fun k => ((k % pool : ℕ) : ℤ)) (Nat.zero_le threshold) hge,
      ← sum_Ioc_consecutive (fun k => ((min k (pool * groups + k % pool) : ℕ) : ℤ))
        (Nat.zero_le threshold) hge]
    have hdense : ∑ k ∈ Ioc 0 threshold, ((min k (pool * groups + k % pool) : ℕ) : ℤ) =
        ∑ k ∈ Ioc 0 threshold, (k : ℤ) := sum_congr rfl fun k hk => by
      rw [min_eq_left ((hrow k).mpr (mem_Ioc.mp hk).2)]
    have htail : ∑ k ∈ Ioc threshold n, ((min k (pool * groups + k % pool) : ℕ) : ℤ) =
        ((pool * groups : ℕ) : ℤ) * (n - threshold) +
          ∑ k ∈ Ioc threshold n, ((k % pool : ℕ) : ℤ) := by
      have hfull : ∑ k ∈ Ioc threshold n, ((min k (pool * groups + k % pool) : ℕ) : ℤ) =
          ∑ k ∈ Ioc threshold n, (((pool * groups : ℕ) : ℤ) + ((k % pool : ℕ) : ℤ)) :=
        sum_congr rfl fun k hk => by
          have hpast : ¬k ≤ pool * groups + k % pool := by
            rw [hrow k]
            exact not_le.mpr (mem_Ioc.mp hk).1
          rw [min_eq_right (not_le.mp hpast).le, Nat.cast_add]
      rw [hfull, sum_add_distrib, sum_const, Nat.card_Ioc, nsmul_eq_mul, Nat.cast_sub hge]
      ring
    rw [hdense, htail]
    ring

theorem interpolate_int (function : ℤ → ℤ) (n : ℤ) :
    interpolate function (.int n) = .float (Binary64.nearest (function n)) := by
  have hwhole : (Number.int n - .int n).value = 0 := by
    show ((n - n : ℤ) : ℚ) = 0
    simp
  have hfloor : (Number.int n).floor = n := rfl
  unfold interpolate
  simp only [hfloor]
  rw [if_neg (not_not.mpr hwhole)]
  rfl

theorem windowCumulative_eq (n window : ℕ) :
    windowCumulative n window = ∑ k ∈ Ioc 0 n, ((min k window : ℕ) : ℤ) := by
  have hbelow : ∀ k < window + 1, ((min k window : ℕ) : ℤ) = (k : ℤ) := fun k hk => by
    rw [min_eq_left (Nat.lt_succ_iff.mp hk)]
  have habove : ∀ k, window + 1 ≤ k → ((min k window : ℕ) : ℤ) = (window : ℤ) := fun k hk => by
    rw [min_eq_right (Nat.le_of_succ_le hk)]
  rw [sum_saturated hbelow habove (Nat.succ_pos window), windowCumulative, Nat.add_sub_cancel,
    sum_rows, sum_rows]
  by_cases hn : n ≤ window
  · rw [if_pos (by exact_mod_cast hn), if_pos (Nat.lt_succ_of_le hn)]
  · rw [if_neg (by exact_mod_cast hn), if_neg (by omega), Nat.add_sub_add_right, nsmul_eq_mul,
      Nat.cast_sub (not_le.mp hn).le]

theorem cappedCumulative_eq (n cap : ℕ) : cappedCumulative (.int n) (some (cap : ℤ)) =
      .float (Binary64.nearest (∑ k ∈ Ioc 0 n, min k cap : ℕ)) := by
  rw [cappedCumulative, interpolate_int]
  -- the two accountants write the same sum
  show Number.float (Binary64.nearest ((windowCumulative n cap : ℤ) : ℚ)) = _
  rw [windowCumulative_eq]
  push_cast
  rfl

/-- The rows behind `cached`, as what they add to the prefix. -/
theorem cast_sum_sub (f : ℕ → ℕ) (append cached : ℕ) :
    ((∑ k ∈ Ioc 0 (cached + append), f k : ℕ) : ℚ) - (∑ k ∈ Ioc 0 cached, f k : ℕ) =
      (∑ k ∈ Ioc cached (cached + append), f k : ℕ) := by
  rw [← sum_Ioc_consecutive f (Nat.zero_le cached) (Nat.le_add_right cached append), Nat.cast_add,
    add_sub_cancel_left]

theorem float_sub_sum {f : ℕ → ℕ} {append cached : ℕ}
    (h : ∑ k ∈ Ioc 0 (cached + append), f k ≤ 2 ^ 53) :
    Number.float (Binary64.nearest (∑ k ∈ Ioc 0 (cached + append), f k : ℕ)) -
        .float (Binary64.nearest (∑ k ∈ Ioc 0 cached, f k : ℕ)) =
      .float (∑ k ∈ Ioc cached (cached + append), f k : ℕ) := by
  have hparts := sum_Ioc_consecutive f (Nat.zero_le cached) (Nat.le_add_right cached append)
  show Number.float (Binary64.nearest (Binary64.nearest _ - Binary64.nearest _)) = _
  rw [nearest_of_fits (fits_natCast h), nearest_of_fits (fits_natCast (by omega)), cast_sum_sub,
    nearest_of_fits (fits_natCast (by omega))]

theorem windowPairs_eq {window append cached : ℕ}
    (h : ∑ k ∈ Ioc 0 (cached + append), min k window ≤ 2 ^ 53) :
    windowPairs window append cached =
      .float (∑ k ∈ Ioc cached (cached + append), min k window : ℕ) := by
  rw [windowPairs, ← Nat.cast_add, cappedCumulative_eq, cappedCumulative_eq, float_sub_sum h]

theorem cappedFloorSum_eq {ratio : ℕ} (hratio : 1 ≤ ratio) (n cap : ℕ) :
    cappedFloorSum n ratio cap = ∑ k ∈ Ioc 0 n, ((min cap (k / ratio) : ℕ) : ℤ) := by
  rcases Nat.eq_zero_or_pos cap with rfl | hcap
  · have hzero : floorSum (-1) ratio = 0 := by
      have hm : (-1 : ℤ) / ratio = -1 := Int.ediv_eq_neg_one_of_neg_of_le (by omega) (by omega)
      rw [floorSum]
      simp only [hm]
      have htwo : (ratio : ℤ) * -1 * (-1 - 1) = 2 * ratio := by ring
      rw [htwo, Int.mul_ediv_cancel_left _ two_ne_zero]
      ring
    simp [cappedFloorSum, hzero]
  · have hsaturation : 0 < cap * ratio := Nat.mul_pos hcap hratio
    have hbelow : ∀ k < cap * ratio, ((min cap (k / ratio) : ℕ) : ℤ) = ((k / ratio : ℕ) : ℤ) :=
      fun k hk => by
        rw [min_eq_right ((Nat.div_lt_iff_lt_mul hratio).mpr hk).le]
    have habove : ∀ k, cap * ratio ≤ k → ((min cap (k / ratio) : ℕ) : ℤ) = (cap : ℤ) :=
      fun k hk => by rw [min_eq_left ((Nat.le_div_iff_mul_le hratio).mpr hk)]
    rw [sum_saturated hbelow habove hsaturation, ← floorSum_eq, ← floorSum_eq, cappedFloorSum]
    have hlast : ((cap * ratio - 1 : ℕ) : ℤ) = cap * ratio - 1 := by
      rw [Nat.cast_sub hsaturation, Nat.cast_mul, Nat.cast_one]
    by_cases hn : n < cap * ratio
    · rw [if_pos (by exact_mod_cast hn), if_pos hn]
    · rw [if_neg (by exact_mod_cast hn), if_neg hn, hlast, nsmul_eq_mul,
        Nat.cast_sub (by omega : cap * ratio ≤ n + 1)]
      push_cast
      ring

theorem sum_min_rows (selected append cached : ℕ) : ∃ triangle, 2 * triangle =
        min append (selected - cached) * (min append (selected - cached) + 1) ∧
      ∑ k ∈ Ioc cached (cached + append), min k selected =
        min append (selected - cached) * cached + triangle +
          (append - min append (selected - cached)) * selected := by
  have hle : min append (selected - cached) ≤ append := min_le_left _ _
  have hrows : ∀ k, cached < k → k ≤ cached + append →
      (k ≤ cached + min append (selected - cached) ↔ k ≤ selected) := by omega
  generalize min append (selected - cached) = uncapped at hle hrows ⊢
  refine ⟨∑ k ∈ Ioc 0 uncapped, k, two_mul_sum_rows uncapped, ?_⟩
  rw [← sum_Ioc_consecutive _ (Nat.le_add_right cached uncapped) (Nat.add_le_add_left hle cached)]
  have hhead : ∑ k ∈ Ioc cached (cached + uncapped), min k selected =
      ∑ k ∈ Ioc cached (cached + uncapped), k := sum_congr rfl fun k hk => by
    obtain ⟨hlo, hhi⟩ := mem_Ioc.mp hk
    rw [min_eq_left ((hrows k hlo (by omega)).mp hhi)]
  have htail : ∑ k ∈ Ioc (cached + uncapped) (cached + append), min k selected =
      ∑ _k ∈ Ioc (cached + uncapped) (cached + append), selected :=
    sum_congr rfl fun k hk => by
      obtain ⟨hlo, hhi⟩ := mem_Ioc.mp hk
      have hpast : ¬k ≤ selected := by
        rw [← hrows k (by omega) hhi]
        omega
      rw [min_eq_right (not_le.mp hpast).le]
  have hramp : ∑ k ∈ Ioc cached (cached + uncapped), k =
      uncapped * cached + ∑ k ∈ Ioc 0 uncapped, k := by
    have hbehind := sum_rows_behind cached uncapped
    have htriangle := two_mul_sum_rows uncapped
    rw [← Nat.cast_inj (R := ℚ)] at htriangle ⊢
    push_cast at htriangle ⊢
    linear_combination hbehind - htriangle / 2
  rw [hhead, htail, hramp, sum_const, Nat.card_Ioc, smul_eq_mul, Nat.add_sub_add_left]

theorem causalPairs_eq {selected append cached : ℕ}
    (h : ∑ k ∈ Ioc cached (cached + append), min k selected ≤ 2 ^ 53) :
    causalPairs selected append cached =
      .float (∑ k ∈ Ioc cached (cached + append), min k selected : ℕ) := by
  have huncapped : min (append : ℤ) (max 0 ((selected : ℤ) - cached)) =
      (min append (selected - cached) : ℕ) := by omega
  obtain ⟨triangle, htriangle, hrows⟩ := sum_min_rows selected append cached
  have hle : min append (selected - cached) ≤ append := min_le_left _ _
  rw [hrows] at h ⊢
  simp only [causalPairs, huncapped]
  generalize min append (selected - cached) = uncapped at htriangle hle h ⊢
  have hhalf : ((uncapped * (uncapped + 1) : ℤ) : ℚ) / (2 : ℤ) = triangle := by
    have := congrArg (Nat.cast (R := ℚ)) htriangle
    push_cast at this ⊢
    linarith
  have hcapped : ((append : ℤ) - uncapped) * selected = ((append - uncapped) * selected : ℕ) := by
    push_cast [hle]
    ring
  -- the quotient of integers, and two sums of an integer and a float
  show Number.float (Binary64.nearest (Binary64.nearest
    (Binary64.nearest ((uncapped * cached : ℤ) : ℚ) +
      Binary64.nearest (((uncapped * (uncapped + 1) : ℤ) : ℚ) / (2 : ℤ))) +
    Binary64.nearest _)) = _
  rw [hhalf, hcapped, Int.cast_natCast, nearest_of_fits (fits_natCast (by omega : triangle ≤ _)),
    nearest_of_fits (fits_natCast (by omega : (append - uncapped) * selected ≤ _)),
    ← Nat.cast_mul, Int.cast_natCast,
    nearest_of_fits (fits_natCast (by omega : uncapped * cached ≤ _)), ← Nat.cast_add,
    nearest_of_fits (fits_natCast (by omega : uncapped * cached + triangle ≤ _)), ← Nat.cast_add,
    nearest_of_fits (fits_natCast h)]

/-! ## Requests -/

/-- Sliding windows of more than 2^53 pairs lose one to rounding, and so do capped triangles. -/
theorem window_rounds : (windowPairs 200000000 1 134217728).value = 134217728 ∧
      ∑ k ∈ Ioc 134217728 (134217728 + 1), min k 200000000 = 134217729 ∧
      (causalPairs 200000000 134217729 0).value = 9007199456067584 ∧
      ∑ k ∈ Ioc 0 (0 + 134217729), min k 200000000 = 9007199456067585 := by
  refine ⟨by decide +kernel, by decide +kernel, by decide +kernel, ?_⟩
  obtain ⟨triangle, htriangle, hrows⟩ := sum_min_rows 200000000 134217729 0
  rw [hrows]
  norm_num at htriangle ⊢
  omega

/-- Every closed form weighs a request's own rows, and the same rows in any chunks: the
integer ones always, a window's while its cumulative sums are at most 2^53 (each of them is
the exact sum, rounded once), and a capped triangle while its own sum is. -/
theorem closed_forms {pool topk ratio : ℕ} (hpool : 1 ≤ pool) (htopk : pool ∣ topk)
    (hratio : 1 ≤ ratio) (window cap selected : ℕ) :
    RowByRow (fun append cached =>
        pooledPrefixSum ((cached + append : ℕ) : ℤ) pool - pooledPrefixSum cached pool)
      (fun k => ((k / pool : ℕ) : ℤ)) ∧
    RowByRow (fun append cached =>
        selectedPrefixSum ((cached + append : ℕ) : ℤ) topk pool -
          selectedPrefixSum cached topk pool)
      (fun k => ((min k (topk + k % pool) : ℕ) : ℤ)) ∧
    (∀ n : ℕ, (cappedCumulative (.int n) (some (window : ℤ))).value =
      Binary64.nearest (∑ k ∈ Ioc 0 n, min k window : ℕ)) ∧
    RowByRowWithin (fun append cached => ∑ k ∈ Ioc 0 (cached + append), min k window ≤ 2 ^ 53)
      (fun append cached => (windowPairs window append cached).value)
      (fun k => ((min k window : ℕ) : ℚ)) ∧
    RowByRow (fun append cached =>
        cappedFloorSum ((cached + append : ℕ) : ℤ) ratio cap - cappedFloorSum cached ratio cap)
      (fun k => ((min cap (k / ratio) : ℕ) : ℤ)) ∧
    RowByRowWithin
      (fun append cached => ∑ k ∈ Ioc cached (cached + append), min k selected ≤ 2 ^ 53)
      (fun append cached => (causalPairs selected (append : ℕ) (cached : ℕ)).value)
      (fun k => ((min k selected : ℕ) : ℚ)) := by
  refine ⟨.of_cumulative fun n => pooledPrefixSum_eq n pool,
    .of_cumulative fun n => selectedPrefixSum_eq hpool htopk n,
    fun n => by rw [cappedCumulative_eq]; rfl,
    .of_rows (fun append cached h => ?_) fun append more cached h =>
      prefix_parts append more cached h,
    .of_cumulative fun n => cappedFloorSum_eq hratio n cap,
    .of_rows (fun append cached h => ?_) fun append more cached h => own_parts append more cached h⟩
  · rw [windowPairs_eq h, ← Nat.cast_sum]
    rfl
  · rw [causalPairs_eq h, ← Nat.cast_sum]
    rfl

/-- Two groups of four, in a request of five queries behind ten; and its window of three. -/
theorem closed_forms_pools : selectedPrefixSum ((10 + 5 : ℕ) : ℤ) (8 : ℕ) (4 : ℕ) -
          selectedPrefixSum (10 : ℕ) (8 : ℕ) (4 : ℕ) =
        ∑ k ∈ Ioc 10 (10 + 5), ((min k (8 + k % 4) : ℕ) : ℤ) ∧
      (windowPairs (3 : ℕ) (5 : ℕ) (10 : ℕ)).value =
        ∑ k ∈ Ioc 10 (10 + 5), ((min k 3 : ℕ) : ℚ) := by
  have hclosed := @closed_forms 4 8 2 (by decide) (by decide) (by decide) 3 5 6
  exact ⟨hclosed.2.1.rows 5 10, hclosed.2.2.2.1.rows 5 10 (by decide)⟩

/-! ## Attention of a batch -/

theorem interpolateWhole_float (function : ℤ → ℤ) {n : ℕ} (hn : n ≤ 2 ^ 53) :
    interpolateWhole function (.float n) = .float (Binary64.nearest (function n)) := by
  have hfloor : (Number.float (n : ℚ)).floor = n := Int.floor_natCast n
  have hwhole : (Number.float (n : ℚ) - .int n).value = 0 := by
    show Binary64.nearest ((n : ℚ) - Binary64.nearest ((n : ℤ) : ℚ)) = 0
    rw [Int.cast_natCast, nearest_of_fits (fits_natCast hn), sub_self,
      nearest_of_fits Binary64.fits_zero]
  unfold interpolateWhole
  simp only [hfloor]
  rw [if_neg (not_not.mpr hwhole)]
  rfl

theorem cumulativeDelta_eq {function : ℤ → ℤ} {f : ℕ → ℕ}
    (hfunction : ∀ n : ℕ, function n = ∑ k ∈ Ioc 0 n, ((f k : ℕ) : ℤ)) (count : ℚ)
    {append cached : ℕ} (hlast : cached + append ≤ 2 ^ 53)
    (h : ∑ k ∈ Ioc 0 (cached + append), f k ≤ 2 ^ 53) :
    cumulativeDelta function ⟨count, append, cached⟩ =
      .float (∑ k ∈ Ioc cached (cached + append), f k : ℕ) := by
  have hcast : ∀ n : ℕ, ((function n : ℤ) : ℚ) = (∑ k ∈ Ioc 0 n, f k : ℕ) := fun n => by
    rw [hfunction]
    push_cast
    rfl
  have hsum : Number.float (cached : ℚ) + .float (append : ℚ) = .float (cached + append : ℕ) := by
    show Number.float (Binary64.nearest ((cached : ℚ) + append)) = _
    rw [← Nat.cast_add, nearest_of_fits (fits_natCast hlast)]
  rw [cumulativeDelta]
  simp only
  rw [hsum, interpolateWhole_float function hlast, interpolateWhole_float function (by omega),
    hcast, hcast, float_sub_sum h]

/-- A compressed layer attends each row's window and its top-k compressed entries, while their
sums are at most 2^53. -/
theorem DeepseekV41Attention.selectedPairs_rows {window ratio topk : ℕ} (hratio : 1 ≤ ratio)
    (count : ℚ) {append cached : ℕ} (hlast : cached + append ≤ 2 ^ 53)
    (h : ∑ k ∈ Ioc 0 (cached + append), (min k window + min topk (k / ratio)) ≤ 2 ^ 53) :
    ((DeepseekV41Attention.mk window ratio topk).selectedPairs ⟨count, append, cached⟩).value =
      ∑ k ∈ Ioc cached (cached + append),
        (((min k window : ℕ) : ℚ) + ((min topk (k / ratio) : ℕ) : ℚ)) := by
  have hcompressed : (ratio : ℤ) ≠ 0 := by exact_mod_cast Nat.one_le_iff_ne_zero.mp hratio
  have hown := (sum_le_sum_of_subset (f := fun k => min k window + min topk (k / ratio))
    (Ioc_subset_Ioc_left (b := cached + append) (Nat.zero_le cached))).trans h
  rw [sum_add_distrib] at h hown
  rw [selectedPairs, if_pos hcompressed,
    cumulativeDelta_eq (fun n => windowCumulative_eq n window) count hlast (by omega),
    cumulativeDelta_eq (fun n => cappedFloorSum_eq hratio n topk) count hlast (by omega),
    sum_add_distrib]
  show Binary64.nearest (((_ : ℕ) : ℚ) + ((_ : ℕ) : ℚ)) = _
  rw [← Nat.cast_add, nearest_of_fits (fits_natCast hown)]
  push_cast
  rfl

/-- A window of three and two entries of two positions each, five queries behind ten. -/
theorem DeepseekV41Attention.selectedPairs_rows_five :
    ((DeepseekV41Attention.mk (3 : ℕ) (2 : ℕ) (2 : ℕ)).selectedPairs
        ⟨1, (5 : ℕ), (10 : ℕ)⟩).value =
      ∑ k ∈ Ioc 10 (10 + 5), (((min k 3 : ℕ) : ℚ) + ((min 2 (k / 2) : ℕ) : ℚ)) :=
  selectedPairs_rows (by decide) 1 (by decide) (by decide)

end SparseAttention

end ServingSim
