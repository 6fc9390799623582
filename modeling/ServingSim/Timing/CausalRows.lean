import ServingSim.Common.Checked
import ServingSim.Lib.Binary64
import ServingSim.Lib.RowSums

/-
  The rows a causal prefill reads, in closed form (`timing/kernels/causal_rows.rs`).

  Row `x` of a request with `queries` queries at the end of a `context` runs over
  `context - queries + 1 ..= context`. A kernel's logical work counts the rows each query
  reads: a window that fills up with the position, or one compressed row per `ratio`
  positions with at most `cap` selected.

  What is proved:
    1. `causal_rows` — both, for every request: exact while the sum fits a double, and beyond
       it the integer sum rounded once (`compressed`) or within four roundings (`capped`).
    2. `capped_rounds` — the four roundings show, past 2^53 rows.

  Integer operations fail where the machine's overflow, float operations round.
-/

namespace ServingSim

namespace CausalRows

open Finset

open Binary64 (Fits Near)

/-- Rows of a window, or of a top-k, that grows with the position until it is full. -/
def capped (queries context cap : UInt32) : Except String ℚ := do
  let before ← checkedSub context.toNat queries.toNat
  let firstRow ← addWithin 32 before 1
  let first : ℚ := firstRow
  let last : ℚ := context.toNat
  let cap : ℚ := cap.toNat
  let rampLast := min last cap
  let ramp :=
    if rampLast ≥ first then
      Binary64.div (Binary64.mul (Binary64.add first rampLast)
        (Binary64.add (Binary64.sub rampLast first) 1)) 2
    else 0
  return Binary64.add ramp
    (Binary64.mul cap (Binary64.sub last (max rampLast (Binary64.sub first 1))))

/-- Compressed rows of the first `n` positions, uncapped. -/
def floorSum (ratio n : Nat) : Except String Nat := do
  ensure (0 < ratio) "attempt to divide by zero"
  let m := n / ratio
  let positions ← mulWithin 64 ratio m
  let blocks ← mulWithin 64 positions (m - 1)
  let next ← addWithin 64 n 1
  let closed ← mulWithin 64 m ratio
  let rest ← checkedSub next closed
  let rows ← mulWithin 64 m rest
  addWithin 64 (blocks / 2) rows

/-- Compressed rows of the first `n` positions. -/
def prefixSum (ratio : Nat) (cap : Option Nat) (n : Nat) : Except String Nat :=
  match cap with
  | none => floorSum ratio n
  | some cap =>
    if cap = 0 then .ok 0
    else do
      let full ← mulWithin 64 cap ratio
      if n ≥ full then
        let last ← checkedSub full 1
        let below ← floorSum ratio last
        let next ← addWithin 64 n 1
        let past ← checkedSub next full
        let rows ← mulWithin 64 cap past
        addWithin 64 below rows
      else floorSum ratio n

/-- Compressed rows, one per `ratio` positions; at most `cap` of them selected. -/
def compressed (queries context ratio : UInt32) (cap : Option UInt32) : Except String ℚ := do
  let total ← prefixSum ratio.toNat (cap.map UInt32.toNat) context.toNat
  let before ← checkedSub context.toNat queries.toNat
  let earlier ← prefixSum ratio.toNat (cap.map UInt32.toNat) before
  let rows ← checkedSub total earlier
  return Binary64.nearest rows

/-! ## Prefixes -/

/-- What a row reads: a compressed row per `ratio` positions, as many as are selected. -/
def rowsRead (ratio : Nat) (cap : Option Nat) (x : Nat) : Nat :=
  match cap with
  | none => x / ratio
  | some cap => min (x / ratio) cap

theorem rowsRead_le (ratio : Nat) (cap : Option Nat) (x : Nat) : rowsRead ratio cap x ≤ x := by
  unfold rowsRead
  split
  · exact Nat.div_le_self _ _
  · exact (min_le_left _ _).trans (Nat.div_le_self _ _)

theorem sum_lt {f : Nat → Nat} (hf : ∀ x, f x ≤ x) {n : Nat} (hn : n < 2 ^ 32) :
    ∑ x ∈ Ioc 0 n, f x < 2 ^ 64 := by
  have hle : ∑ x ∈ Ioc 0 n, f x ≤ ∑ x ∈ Ioc 0 n, x := sum_le_sum fun x _ => hf x
  have htriangle := RowSums.two_mul_sum_rows n
  have hsquare : n * (n + 1) ≤ (2 ^ 32 - 1) * 2 ^ 32 := Nat.mul_le_mul (by omega) (by omega)
  omega

theorem floorSum_eq {ratio n : Nat} (hratio : 1 ≤ ratio) (hn : n < 2 ^ 32) :
    floorSum ratio n = .ok (∑ x ∈ Ioc 0 n, x / ratio) := by
  have hsum := RowSums.two_mul_sum_div ratio n
  have htotal : ∑ x ∈ Ioc 0 n, x / ratio < 2 ^ 64 := sum_lt (fun x => Nat.div_le_self x ratio) hn
  have hclosed : n / ratio * ratio ≤ n := Nat.div_mul_le_self n ratio
  have hblocks : n / ratio ≤ n := Nat.div_le_self n ratio
  unfold floorSum
  generalize n / ratio = m at *
  generalize hS : ∑ x ∈ Ioc 0 n, x / ratio = total at *
  have hpositions : ratio * m ≤ n := by rwa [Nat.mul_comm]
  have hsquare : ratio * m * (m - 1) ≤ (2 ^ 32 - 1) * (2 ^ 32 - 1) :=
    Nat.mul_le_mul (by omega) (by omega)
  have hparts : 2 * total = ratio * m * (m - 1) + 2 * (m * (n + 1 - m * ratio)) := by
    rw [← Nat.cast_sum, hS] at hsum
    zify [Nat.le_succ_of_le hclosed]
    rw [hsum]
    cases m with
    | zero => simp
    | succ m =>
      push_cast
      ring
  have h1 : mulWithin 64 ratio m = .ok (ratio * m) := mulWithin_of_lt (by omega)
  have h2 : mulWithin 64 (ratio * m) (m - 1) = .ok (ratio * m * (m - 1)) :=
    mulWithin_of_lt (by omega)
  have h3 : addWithin 64 n 1 = .ok (n + 1) := addWithin_of_lt (by omega)
  have h4 : mulWithin 64 m ratio = .ok (m * ratio) := mulWithin_of_lt (by omega)
  have h5 : checkedSub (n + 1) (m * ratio) = .ok (n + 1 - m * ratio) := checkedSub_of_le (by omega)
  have h6 : mulWithin 64 m (n + 1 - m * ratio) = .ok (m * (n + 1 - m * ratio)) :=
    mulWithin_of_lt (by omega)
  have htotal : ratio * m * (m - 1) / 2 + m * (n + 1 - m * ratio) = total := by omega
  have h7 : addWithin 64 (ratio * m * (m - 1) / 2) (m * (n + 1 - m * ratio)) = .ok total :=
    htotal ▸ addWithin_of_lt (by omega)
  have h0 : ensure (0 < ratio) "attempt to divide by zero" = .ok () :=
    ensure_eq_ok_iff.mpr hratio
  simp only [h0, h1, h2, h3, h4, h5, h6, h7, ok_bind]

theorem prefixSum_eq {ratio n : Nat} {cap : Option Nat} (hratio : 1 ≤ ratio)
    (hratio' : ratio < 2 ^ 32) (hcap : ∀ c ∈ cap, c < 2 ^ 32) (hn : n < 2 ^ 32) :
    prefixSum ratio cap n = .ok (∑ x ∈ Ioc 0 n, rowsRead ratio cap x) := by
  cases cap with
  | none => exact floorSum_eq hratio hn
  | some cap =>
    have hcap := hcap cap rfl
    simp only [prefixSum, rowsRead]
    rcases Nat.eq_zero_or_pos cap with rfl | hpos
    · simp
    · have hfull : cap * ratio ≤ (2 ^ 32 - 1) * (2 ^ 32 - 1) := Nat.mul_le_mul (by omega) (by omega)
      have hstop : 0 < cap * ratio := Nat.mul_pos hpos hratio
      have hbelow : ∀ x < cap * ratio, min (x / ratio) cap = x / ratio := fun x hx =>
        min_eq_left ((Nat.div_lt_iff_lt_mul hratio).mpr hx).le
      have habove : ∀ x, cap * ratio ≤ x → min (x / ratio) cap = cap := fun x hx =>
        min_eq_right ((Nat.le_div_iff_mul_le hratio).mpr hx)
      have htotal : ∑ x ∈ Ioc 0 n, min (x / ratio) cap < 2 ^ 64 :=
        sum_lt (fun x => rowsRead_le ratio (some cap) x) hn
      rw [RowSums.sum_saturated hbelow habove hstop] at htotal ⊢
      have h1 : mulWithin 64 cap ratio = .ok (cap * ratio) := mulWithin_of_lt (by omega)
      rw [if_neg (by omega)]
      simp only [h1, ok_bind]
      by_cases hsaturated : n ≥ cap * ratio
      · have hpast : ¬n < cap * ratio := not_lt.mpr hsaturated
        rw [if_neg hpast, smul_eq_mul, Nat.mul_comm (n + 1 - cap * ratio)] at htotal
        have h2 : checkedSub (cap * ratio) 1 = .ok (cap * ratio - 1) := checkedSub_of_le hstop
        have h3 : floorSum ratio (cap * ratio - 1) =
            .ok (∑ x ∈ Ioc 0 (cap * ratio - 1), x / ratio) := floorSum_eq hratio (by omega)
        have h4 : addWithin 64 n 1 = .ok (n + 1) := addWithin_of_lt (by omega)
        have h5 : checkedSub (n + 1) (cap * ratio) = .ok (n + 1 - cap * ratio) :=
          checkedSub_of_le (by omega)
        have h6 : mulWithin 64 cap (n + 1 - cap * ratio) = .ok (cap * (n + 1 - cap * ratio)) :=
          mulWithin_of_lt (by omega)
        rw [if_pos hsaturated, if_neg hpast, smul_eq_mul, Nat.mul_comm (n + 1 - cap * ratio)]
        simp only [h2, h3, h4, h5, h6, ok_bind]
        exact addWithin_of_lt htotal
      · rw [if_neg hsaturated, if_pos (by omega), floorSum_eq hratio hn]

/-! ## Requests -/

theorem two_mul_sum_min (before queries cap : Nat) :
    2 * ∑ x ∈ Ioc before (before + queries), min x cap =
      (before + 1 + min (before + queries) cap) * (min (before + queries) cap - before) +
        2 * (cap * (before + queries - max (min (before + queries) cap) before)) := by
  by_cases hramp : before ≤ min (before + queries) cap
  · -- the rows up to the ramp's end grow, those behind it are full
    obtain ⟨rows, hrows⟩ := Nat.exists_eq_add_of_le hramp
    rw [hrows] at hramp ⊢
    have hle : before + rows ≤ before + queries := hrows ▸ min_le_left _ _
    have hhead : ∑ x ∈ Ioc before (before + rows), min x cap =
        ∑ x ∈ Ioc before (before + rows), x := sum_congr rfl fun x hx => by
      have := (mem_Ioc.mp hx).2
      rw [min_eq_left (by omega)]
    have htail : ∑ x ∈ Ioc (before + rows) (before + queries), min x cap =
        ∑ _x ∈ Ioc (before + rows) (before + queries), cap := sum_congr rfl fun x hx => by
      have := mem_Ioc.mp hx
      rw [min_eq_right (by omega)]
    have htriangle : 2 * ∑ x ∈ Ioc before (before + rows), x =
        (before + 1 + (before + rows)) * rows := by
      have h := RowSums.sum_rows_behind before rows
      rw [← Nat.cast_inj (R := ℚ)]
      push_cast
      linear_combination 2 * h
    rw [← sum_Ioc_consecutive _ (Nat.le_add_right before rows) hle, hhead, htail, Nat.mul_add,
      htriangle, sum_const, Nat.card_Ioc, smul_eq_mul, max_eq_left (Nat.le_add_right before rows),
      Nat.add_sub_cancel_left, Nat.mul_comm cap]
  · -- every row is past the cap
    have hfull : ∑ x ∈ Ioc before (before + queries), min x cap =
        ∑ _x ∈ Ioc before (before + queries), cap := sum_congr rfl fun x hx => by
      have := mem_Ioc.mp hx
      rw [min_eq_right (by omega)]
    rw [hfull, sum_const, Nat.card_Ioc, smul_eq_mul, max_eq_right (by omega),
      Nat.sub_eq_zero_of_le (by omega : min (before + queries) cap ≤ before), Nat.mul_zero,
      Nat.zero_add, Nat.mul_comm cap]

theorem fits_of_lt {n : Nat} (h : n < 2 ^ 53) : Fits n := Binary64.fits_natCast h.le

theorem capped_rounded {before queries : Nat} (cap last : UInt32) {queriesBits : UInt32}
    (hqueries : queriesBits.toNat = queries) (hlast : last.toNat = before + queries)
    (hpos : 1 ≤ queries) :
    capped queriesBits last cap = .ok
      (Binary64.nearest (Binary64.nearest (Binary64.nearest
          (((before + 1 + min (before + queries) cap.toNat) *
            (min (before + queries) cap.toNat - before) : ℕ) : ℚ) / 2) +
        Binary64.nearest ((cap.toNat *
          (before + queries - max (min (before + queries) cap.toNat) before) : ℕ) : ℚ))) := by
  have hbits := last.toNat_lt
  have hcap := cap.toNat_lt
  rw [hlast] at hbits
  unfold capped
  rw [hqueries, hlast]
  generalize cap.toNat = cap at *
  have h1 : checkedSub (before + queries) queries = .ok before := by
    rw [checkedSub_of_le (Nat.le_add_left _ _), Nat.add_sub_cancel]
  have h2 : addWithin 32 before 1 = .ok (before + 1) := addWithin_of_lt (by omega)
  simp only [h1, h2, ok_bind]
  refine congrArg Except.ok ?_
  have hmin : min ((before + queries : ℕ) : ℚ) (cap : ℚ) = (min (before + queries) cap : ℕ) := by
    push_cast
    rfl
  have hbefore : Binary64.sub ((before + 1 : ℕ) : ℚ) 1 = (before : ℕ) := by
    rw [Binary64.sub, Nat.cast_succ, add_sub_cancel_right,
      Binary64.nearest_of_fits (fits_of_lt (by omega))]
  have hend : min (before + queries) cap ≤ before + queries := min_le_left _ _
  rw [hmin, hbefore, ← Nat.cast_max]
  generalize min (before + queries) cap = rampLast at hend ⊢
  have hfull : Binary64.sub ((before + queries : ℕ) : ℚ) ((max rampLast before : ℕ) : ℚ) =
      (before + queries - max rampLast before : ℕ) := by
    rw [Binary64.sub, ← Nat.cast_sub (max_le hend (Nat.le_add_right _ _)),
      Binary64.nearest_of_fits (fits_of_lt (by omega))]
  have hcapped : ∀ n : ℕ, Binary64.mul (cap : ℚ) (n : ℚ) = Binary64.nearest ((cap * n : ℕ) : ℚ) :=
    fun n => by rw [Binary64.mul, ← Nat.cast_mul]
  rw [hfull, hcapped, Binary64.add]
  congr 2
  by_cases hramp : before + 1 ≤ rampLast
  · have hrows : Binary64.add (Binary64.sub (rampLast : ℚ) ((before + 1 : ℕ) : ℚ)) 1 =
        (rampLast - before : ℕ) := by
      rw [Binary64.sub, ← Nat.cast_sub hramp, Binary64.nearest_of_fits (fits_of_lt (by omega)),
        Binary64.add, ← Nat.cast_succ, Binary64.nearest_of_fits (fits_of_lt (by omega))]
      congr 1
      omega
    rw [if_pos (by exact_mod_cast hramp), hrows, Binary64.add, ← Nat.cast_add,
      Binary64.nearest_of_fits (fits_of_lt (by omega)), Binary64.mul, ← Nat.cast_mul, Binary64.div]
  · rw [if_neg (by exact_mod_cast hramp), Nat.sub_eq_zero_of_le (by omega : rampLast ≤ before),
      Nat.mul_zero]
    simp [Binary64.nearest_of_fits Binary64.fits_zero]

theorem whole_normal (n : Nat) : (n : ℚ) = 0 ∨ 1 / 2 ≤ |(n : ℚ)| := by
  rcases Nat.eq_zero_or_pos n with rfl | hpos
  · exact .inl Nat.cast_zero
  · right
    have : (1 : ℚ) ≤ n := by exact_mod_cast hpos
    rw [Nat.abs_cast]
    linarith

/-- Twice the ramp and the full rows, rounded as `capped` does. -/
theorem rounded_near {twice full rows : Nat} (h : 2 * rows = twice + 2 * full) :
    Near 3 (Binary64.nearest (Binary64.nearest (Binary64.nearest (twice : ℚ) / 2) +
      Binary64.nearest (full : ℚ))) rows := by
  obtain ⟨ramp, rfl⟩ : ∃ ramp, twice = 2 * ramp := ⟨rows - full, by omega⟩
  have hrows : ((ramp : ℚ) + full) = rows := by
    have : ramp + full = rows := by omega
    exact_mod_cast this
  have hhalf : Near 1 (Binary64.nearest ((2 * ramp : ℕ) : ℚ) / 2) ramp := by
    have hround := (Near.refl ((2 * ramp : ℕ) : ℚ)).nearest
      ((Near.refl _).normal (by norm_num) (whole_normal _))
    have hdiv := hround.div_const 2
    rwa [Nat.cast_mul, Nat.cast_two, mul_div_cancel_left₀ _ two_ne_zero, ← Nat.cast_two,
      ← Nat.cast_mul, Nat.cast_two] at hdiv
  have hramp := hhalf.nearest (hhalf.normal (by norm_num) (whole_normal _))
  have hfull := (Near.refl (full : ℚ)).nearest ((Near.refl _).normal (by norm_num) (whole_normal _))
  have hsum := hramp.add (hfull.mono (by norm_num)) (Nat.cast_nonneg ramp) (Nat.cast_nonneg full)
  rw [hrows] at hsum
  exact hsum.nearest (hsum.normal (by norm_num) (whole_normal _))

theorem rounded_exact {twice full rows : Nat} (h : 2 * rows = twice + 2 * full)
    (hrows : rows ≤ 2 ^ 53) :
    Binary64.nearest (Binary64.nearest (Binary64.nearest (twice : ℚ) / 2) +
      Binary64.nearest (full : ℚ)) = rows := by
  obtain ⟨ramp, rfl⟩ : ∃ ramp, twice = 2 * ramp := ⟨rows - full, by omega⟩
  rw [Nat.cast_mul, Nat.cast_two, Binary64.nearest_of_fits (Binary64.fits_even (by omega)),
    mul_div_cancel_left₀ _ two_ne_zero, Binary64.nearest_of_fits (Binary64.fits_natCast (by omega)),
    Binary64.nearest_of_fits (Binary64.fits_natCast (by omega)), ← Nat.cast_add,
    show ramp + full = rows by omega, Binary64.nearest_of_fits (Binary64.fits_natCast hrows)]

theorem capped_eq {queries context : UInt32} (cap : UInt32) (hqueries : 1 ≤ queries.toNat)
    (hcontext : queries.toNat ≤ context.toNat) :
    ∃ rows, capped queries context cap = .ok rows ∧
      (∑ x ∈ Ioc (context.toNat - queries.toNat) context.toNat, min x cap.toNat ≤ 2 ^ 53 →
        rows = (∑ x ∈ Ioc (context.toNat - queries.toNat) context.toNat, min x cap.toNat : ℕ)) ∧
      Near 3 rows
        (∑ x ∈ Ioc (context.toNat - queries.toNat) context.toNat, min x cap.toNat : ℕ) := by
  have hlast : context.toNat = context.toNat - queries.toNat + queries.toNat := by omega
  have hsum := two_mul_sum_min (context.toNat - queries.toNat) queries.toNat cap.toNat
  rw [← hlast] at hsum
  have hrounded := capped_rounded cap context rfl hlast hqueries
  rw [← hlast] at hrounded
  exact ⟨_, hrounded, rounded_exact hsum, rounded_near hsum⟩

theorem compressed_eq {queries context ratio : UInt32} (cap : Option UInt32)
    (hcontext : queries.toNat ≤ context.toNat) (hratio : 1 ≤ ratio.toNat) :
    compressed queries context ratio cap =
      .ok (Binary64.nearest (∑ x ∈ Ioc (context.toNat - queries.toNat) context.toNat,
        rowsRead ratio.toNat (cap.map UInt32.toNat) x : ℕ)) := by
  have hcap : ∀ c ∈ cap.map UInt32.toNat, c < 2 ^ 32 := by
    intro c hc
    obtain ⟨cap, -, rfl⟩ := Option.map_eq_some_iff.mp hc
    exact cap.toNat_lt
  have hbits := context.toNat_lt
  unfold compressed
  rw [prefixSum_eq hratio ratio.toNat_lt hcap hbits, ok_bind, checkedSub_of_le hcontext, ok_bind,
    prefixSum_eq hratio ratio.toNat_lt hcap (by omega), ok_bind,
    ← sum_Ioc_consecutive _ (Nat.zero_le _) (Nat.sub_le context.toNat queries.toNat),
    checkedSub_of_le (Nat.le_add_right _ _), ok_bind, Nat.add_sub_cancel_left]
  rfl

/-- Past 2^53 rows the four roundings lose two of them. -/
theorem capped_rounds : capped 134217730 134217730 134217729 = .ok 9007199590285312 ∧
      ∑ x ∈ Icc (134217730 - 134217730 + 1) 134217730, min x 134217729 = 9007199590285314 := by
  constructor
  · rw [@capped_rounded 0 134217730 134217729 134217730 134217730 rfl rfl (by decide)]
    exact congrArg Except.ok (by decide +kernel)
  · have hsum := two_mul_sum_min 0 134217730 134217729
    have hrows : Icc (134217730 - 134217730 + 1) 134217730 = Ioc 0 (0 + 134217730) := by
      ext x
      rw [mem_Icc, mem_Ioc]
      omega
    have hend : min (0 + 134217730) 134217729 = 134217729 := rfl
    rw [hend] at hsum
    rw [hrows]
    omega

/-- The closed forms never fail. A total that a double holds is the row-by-row sum; beyond it
`compressed` is that sum rounded once and `capped` is off by 2^-51 of it at most. -/
theorem causal_rows {queries context ratio : UInt32} (cap : UInt32) (selected : Option UInt32)
    (hqueries : 1 ≤ queries) (hcontext : queries ≤ context) (hratio : 1 ≤ ratio) :
    let rows := ∑ x ∈ Icc (context.toNat - queries.toNat + 1) context.toNat, min x cap.toNat
    let entries := ∑ x ∈ Icc (context.toNat - queries.toNat + 1) context.toNat,
      rowsRead ratio.toNat (selected.map UInt32.toNat) x
    (∃ counted, capped queries context cap = .ok counted ∧
      (rows ≤ 2 ^ 53 → counted = rows) ∧ |counted - rows| ≤ rows / 2 ^ 51) ∧
      compressed queries context ratio selected = .ok (Binary64.nearest entries) ∧
      (entries ≤ 2 ^ 53 → compressed queries context ratio selected = .ok entries) := by
  have hqueries := UInt32.le_iff_toNat_le.mp hqueries
  have hcontext := UInt32.le_iff_toNat_le.mp hcontext
  have hratio := UInt32.le_iff_toNat_le.mp hratio
  have hrows : Icc (context.toNat - queries.toNat + 1) context.toNat =
      Ioc (context.toNat - queries.toNat) context.toNat := by
    ext x
    rw [mem_Icc, mem_Ioc, Nat.succ_le_iff]
  intro rows entries
  simp only [rows, entries, hrows]
  obtain ⟨counted, hcounted, hexact, hnear⟩ := capped_eq cap hqueries hcontext
  have hcompressed := compressed_eq selected hcontext hratio
  refine ⟨⟨counted, hcounted, hexact, ?_⟩, hcompressed, fun hfits => ?_⟩
  · have hgrowth : (1 + 1 / 2 ^ 53 : ℚ) ^ 3 - 1 ≤ 1 / 2 ^ 51 := by norm_num
    rw [Near, Nat.abs_cast] at hnear
    refine hnear.trans ((mul_le_mul_of_nonneg_right hgrowth (Nat.cast_nonneg _)).trans_eq ?_)
    ring
  · rw [hcompressed, Binary64.nearest_of_fits (Binary64.fits_natCast hfits)]

/-- A hundred queries end a context of 2100 that fills a window of 2048, and fills 500 selected
entries of four positions each. -/
theorem causal_rows_window : (∃ counted, capped 100 2100 2048 = .ok counted ∧
        counted = (∑ x ∈ Icc (2100 - 100 + 1) 2100, min x 2048 : ℕ)) ∧
      compressed 100 2100 4 (some 512) =
        .ok (∑ x ∈ Icc (2100 - 100 + 1) 2100, rowsRead 4 (some 512) x : ℕ) := by
  have hclosed := @causal_rows 100 2100 4 2048 (some 512) (by decide) (by decide) (by decide)
  obtain ⟨⟨counted, hcounted, hexact, -⟩, -, hentries⟩ := hclosed
  exact ⟨⟨counted, hcounted, hexact (by decide +kernel)⟩, hentries (by decide +kernel)⟩

end CausalRows

end ServingSim
