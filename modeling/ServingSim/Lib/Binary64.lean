import Mathlib.Tactic
import Mathlib.Data.Int.Log

/-
  Double precision on the rationals.

  A result is rounded to 53 bits, or to the last bit of the subnormals, and a half goes to
  the even neighbour. Nothing is too large: the range ends at 2^1024, far above every
  quantity this is used for. Neither infinities, NaN nor the sign of zero exist.
-/

namespace Binary64

/-- The nearest whole number, of two equally near ones the even. -/
def roundEven (x : ℚ) : ℤ :=
  let low := ⌊x⌋
  if x - low < 1 / 2 then low
  else if 1 / 2 < x - low then low + 1
  else if low % 2 = 0 then low
  else low + 1

/-- The place of the last bit: 53 bits from the leading one, and none below the subnormals. -/
def lastBit (x : ℚ) : ℤ := max (Int.log 2 |x| - 52) (-1074)

/-- The nearest double. -/
def nearest (x : ℚ) : ℚ := roundEven (x / 2 ^ lastBit x) * 2 ^ lastBit x

def add (x y : ℚ) : ℚ := nearest (x + y)

def sub (x y : ℚ) : ℚ := nearest (x - y)

def mul (x y : ℚ) : ℚ := nearest (x * y)

def div (x y : ℚ) : ℚ := nearest (x / y)

/-- A sum from left to right, each running total rounded. -/
def sum (values : List ℚ) : ℚ := values.foldl add 0

/-- What an addition lost, recovered from the larger operand. -/
def lost (total value : ℚ) : ℚ :=
  if |value| ≤ |total| then add (sub total (add total value)) value
  else add (sub value (add total value)) total

/-- A sum from left to right that adds what the roundings lost at the end. -/
def compensated (values : List ℚ) : ℚ :=
  let (total, compensation) := values.foldl
    (fun (total, compensation) value => (add total value, add compensation (lost total value)))
    (0, 0)
  if compensation = 0 then total else add total compensation

/-! ## Whole numbers -/

theorem roundEven_intCast (n : ℤ) : roundEven n = n := by
  simp [roundEven]

theorem abs_roundEven_sub_le (x : ℚ) : |(roundEven x : ℚ) - x| ≤ 1 / 2 := by
  have hlow := Int.floor_le x
  have hhigh := Int.lt_floor_add_one x
  simp only [roundEven]
  rw [abs_le]
  split_ifs <;> push_cast <;> constructor <;> linarith

/-! ## What fits -/

/-- At most 53 bits, the last one no lower than the subnormals'. -/
def Fits (x : ℚ) : Prop := ∃ m e : ℤ, |m| < 2 ^ 53 ∧ -1074 ≤ e ∧ x = m * 2 ^ e

theorem lastBit_le {m e : ℤ} (hm : |m| < 2 ^ 53) (hzero : m ≠ 0) (he : -1074 ≤ e) :
    lastBit (m * 2 ^ e) ≤ e := by
  by_contra hgt
  have hpos : 0 < |(m : ℚ) * 2 ^ e| := abs_pos.mpr (by positivity)
  have hlead := Int.zpow_log_le_self (b := 2) one_lt_two hpos
  have hplace : e + 53 ≤ Int.log 2 |(m : ℚ) * 2 ^ e| := by
    rw [lastBit] at hgt
    omega
  have hbits : (2 : ℚ) ^ (53 : ℤ) * 2 ^ e ≤ (|m| : ℤ) * 2 ^ e := by
    calc (2 : ℚ) ^ (53 : ℤ) * 2 ^ e = 2 ^ (e + 53) := by
          rw [zpow_add₀ two_ne_zero, mul_comm]
      _ ≤ 2 ^ Int.log 2 |(m : ℚ) * 2 ^ e| := zpow_le_zpow_right₀ (by norm_num) hplace
      _ ≤ |(m : ℚ) * 2 ^ e| := hlead
      _ = (|m| : ℤ) * 2 ^ e := by
          rw [abs_mul, abs_of_pos (by positivity : (0 : ℚ) < 2 ^ e), Int.cast_abs]
  have hlow : ((2 ^ 53 : ℤ) : ℚ) ≤ (|m| : ℤ) := by
    have := le_of_mul_le_mul_right hbits (by positivity)
    norm_num at this ⊢
    exact this
  exact absurd (Int.cast_le.mp hlow) (not_le.mpr hm)

variable {x : ℚ}

theorem nearest_of_fits (h : Fits x) : nearest x = x := by
  obtain ⟨m, e, hm, he, rfl⟩ := h
  rcases eq_or_ne m 0 with rfl | hzero
  · simp [nearest, roundEven]
  · obtain ⟨k, hk⟩ := Int.eq_ofNat_of_zero_le (sub_nonneg.mpr (lastBit_le hm hzero he))
    have hbits : (m : ℚ) * 2 ^ e / 2 ^ lastBit (m * 2 ^ e) = ((m * 2 ^ k : ℤ) : ℚ) := by
      rw [mul_div_assoc, ← zpow_sub₀ two_ne_zero, hk]
      push_cast
      rw [zpow_natCast]
    rw [nearest, hbits, roundEven_intCast, ← hbits, div_mul_cancel₀ _ (by positivity)]

theorem fits_of_le {m e : ℤ} (hm : |m| ≤ 2 ^ 53) (he : -1074 ≤ e) : Fits (m * 2 ^ e) := by
  rcases hm.lt_or_eq with hlt | hfull
  · exact ⟨m, e, hlt, he, rfl⟩
  · have hhalf : (m : ℚ) * 2 ^ e = ((m / 2 : ℤ) : ℚ) * 2 ^ (e + 1) := by
      have hm2 : m = m / 2 * 2 := by
        rcases (abs_eq (by norm_num)).mp hfull with rfl | rfl <;> norm_num
      rw [zpow_add₀ two_ne_zero, zpow_one, mul_comm ((2 : ℚ) ^ e), ← mul_assoc]
      congr 1
      exact_mod_cast hm2
    refine ⟨m / 2, e + 1, ?_, by omega, hhalf⟩
    rcases (abs_eq (by norm_num)).mp hfull with rfl | rfl <;> norm_num

theorem fits_intCast {n : ℤ} (h : |n| ≤ 2 ^ 53) : Fits n := by
  have := fits_of_le h (by norm_num : (-1074 : ℤ) ≤ 0)
  rwa [zpow_zero, mul_one] at this

theorem fits_natCast {n : ℕ} (h : n ≤ 2 ^ 53) : Fits n :=
  fits_intCast (n := n) (by rw [Nat.abs_cast]; exact_mod_cast h)

theorem fits_even {n : ℕ} (h : n ≤ 2 ^ 53) : Fits (2 * n) := by
  have := fits_of_le (m := n) (by rw [Nat.abs_cast]; exact_mod_cast h)
    (by norm_num : (-1074 : ℤ) ≤ 1)
  rwa [zpow_one, mul_comm] at this

theorem fits_zero : Fits 0 := ⟨0, 0, by norm_num, by norm_num, by simp⟩

theorem abs_roundEven_le {n : ℤ} (h : |x| ≤ n) : |roundEven x| ≤ n := by
  have hfloor := Int.floor_le x
  obtain ⟨hlow, hhigh⟩ := abs_le.mp h
  have hbelow : -n ≤ ⌊x⌋ := Int.le_floor.mpr (by push_cast; exact hlow)
  have habove : ⌊x⌋ ≤ n := by exact_mod_cast hfloor.trans hhigh
  -- above the floor there is only a whole number when the value is not whole
  have hnext : ⌊x⌋ < x → ⌊x⌋ + 1 ≤ n := fun hlt => by
    have : (⌊x⌋ : ℚ) < n := hlt.trans_le hhigh
    exact_mod_cast this
  have hcases : roundEven x = ⌊x⌋ ∨ roundEven x = ⌊x⌋ + 1 ∧ ⌊x⌋ < x := by
    simp only [roundEven]
    split_ifs with h₁ h₂ h₃
    · exact .inl rfl
    · exact .inr ⟨rfl, by linarith⟩
    · exact .inl rfl
    · exact .inr ⟨rfl, by linarith⟩
  rw [abs_le]
  rcases hcases with heq | ⟨heq, hlt⟩
  · exact heq ▸ ⟨hbelow, habove⟩
  · have := hnext hlt
    omega

theorem fits_nearest (x : ℚ) : Fits (nearest x) := by
  have hbit : (0 : ℚ) < 2 ^ lastBit x := by positivity
  refine fits_of_le (abs_roundEven_le ?_) (le_max_right _ _)
  rw [abs_div, abs_of_pos hbit, div_le_iff₀ hbit]
  calc |x| ≤ 2 ^ (Int.log 2 |x| + 1) := (Int.lt_zpow_succ_log_self one_lt_two |x|).le
    _ ≤ 2 ^ (53 + lastBit x) :=
        zpow_le_zpow_right₀ (by norm_num) (by have := le_max_left (Int.log 2 |x| - 52) (-1074);
                                              rw [← lastBit] at this; omega)
    _ = ((2 ^ 53 : ℤ) : ℚ) * 2 ^ lastBit x := by
        rw [zpow_add₀ two_ne_zero]
        norm_num

theorem nearest_eq_self_iff : nearest x = x ↔ Fits x :=
  ⟨fun h => h ▸ fits_nearest x, nearest_of_fits⟩

instance : DecidablePred Fits := fun _ => decidable_of_iff _ nearest_eq_self_iff

/-! ## Errors -/

theorem abs_nearest_sub_le_bit (x : ℚ) : |nearest x - x| ≤ 2 ^ lastBit x / 2 := by
  have hbit : (0 : ℚ) < 2 ^ lastBit x := by positivity
  have hscaled := abs_roundEven_sub_le (x / 2 ^ lastBit x)
  calc |nearest x - x| =
      |(roundEven (x / 2 ^ lastBit x) : ℚ) - x / 2 ^ lastBit x| * 2 ^ lastBit x := by
        rw [← abs_of_pos hbit, ← abs_mul, abs_of_pos hbit, sub_mul, div_mul_cancel₀ _ hbit.ne',
          nearest]
    _ ≤ 1 / 2 * 2 ^ lastBit x := mul_le_mul_of_nonneg_right hscaled hbit.le
    _ = 2 ^ lastBit x / 2 := by ring

theorem abs_nearest_sub_le (h : 2 ^ (-1022 : ℤ) ≤ |x|) :
    |nearest x - x| ≤ |x| / 2 ^ 53 := by
  have hpos : 0 < |x| := lt_of_lt_of_le (by positivity) h
  have hlog : -1022 ≤ Int.log 2 |x| := (Int.zpow_le_iff_le_log one_lt_two hpos).mp h
  have hplace : lastBit x = Int.log 2 |x| - 52 := max_eq_left (by omega)
  calc |nearest x - x| ≤ 2 ^ lastBit x / 2 := abs_nearest_sub_le_bit x
    _ = 2 ^ Int.log 2 |x| / 2 ^ 53 := by
        rw [hplace, zpow_sub₀ two_ne_zero]
        norm_num [div_div]
    _ ≤ |x| / 2 ^ 53 :=
        div_le_div_of_nonneg_right (Int.zpow_log_le_self one_lt_two hpos) (by positivity)

/-- `x` is `y` after at most `k` roundings. -/
def Near (k : ℕ) (x y : ℚ) : Prop := |x - y| ≤ ((1 + 1 / 2 ^ 53) ^ k - 1) * |y|

theorem Near.refl (x : ℚ) : Near 0 x x := by simp [Near]

theorem Near.mono {j k : ℕ} {x y : ℚ} (h : Near j x y) (hle : j ≤ k) : Near k x y := by
  refine h.trans (mul_le_mul_of_nonneg_right ?_ (abs_nonneg y))
  exact sub_le_sub_right (pow_le_pow_right₀ (by norm_num) hle) 1

theorem Near.nearest {k : ℕ} {x y : ℚ} (h : Near k x y) (hx : x = 0 ∨ 2 ^ (-1022 : ℤ) ≤ |x|) :
    Near (k + 1) (nearest x) y := by
  have hrounded : |Binary64.nearest x - x| ≤ |x| / 2 ^ 53 := by
    rcases hx with rfl | hx
    · simp [Binary64.nearest, roundEven]
    · exact abs_nearest_sub_le hx
  have hsize : |x| ≤ (1 + 1 / 2 ^ 53) ^ k * |y| := by
    have htriangle := abs_sub_abs_le_abs_sub x y
    rw [Near] at h
    linarith
  calc |Binary64.nearest x - y| ≤ |Binary64.nearest x - x| + |x - y| := abs_sub_le _ _ _
    _ ≤ (1 + 1 / 2 ^ 53) ^ k * |y| / 2 ^ 53 + ((1 + 1 / 2 ^ 53) ^ k - 1) * |y| :=
        add_le_add (hrounded.trans (div_le_div_of_nonneg_right hsize (by positivity))) h
    _ = ((1 + 1 / 2 ^ 53) ^ (k + 1) - 1) * |y| := by ring

theorem Near.add {k : ℕ} {x x' y y' : ℚ} (h : Near k x y) (h' : Near k x' y') (hy : 0 ≤ y)
    (hy' : 0 ≤ y') : Near k (x + x') (y + y') := by
  calc |x + x' - (y + y')| = |(x - y) + (x' - y')| := by ring_nf
    _ ≤ |x - y| + |x' - y'| := abs_add_le _ _
    _ ≤ _ := add_le_add h h'
    _ = ((1 + 1 / 2 ^ 53) ^ k - 1) * |y + y'| := by
        rw [abs_of_nonneg hy, abs_of_nonneg hy', abs_of_nonneg (add_nonneg hy hy')]
        ring

theorem Near.div_const {k : ℕ} {x y : ℚ} (h : Near k x y) (c : ℚ) : Near k (x / c) (y / c) := by
  rw [Near, ← sub_div, abs_div, abs_div, ← mul_div_assoc]
  exact div_le_div_of_nonneg_right h (abs_nonneg c)

theorem Near.normal {k : ℕ} {x y : ℚ} (h : Near k x y) (hk : k ≤ 3) (hy : y = 0 ∨ 1 / 2 ≤ |y|) :
    x = 0 ∨ 2 ^ (-1022 : ℤ) ≤ |x| := by
  have hnear : |x - y| ≤ 1 / 2 * |y| := by
    refine (h.mono hk).trans (mul_le_mul_of_nonneg_right ?_ (abs_nonneg y))
    norm_num
  rcases hy with rfl | hy
  · left
    simpa using hnear
  · right
    have htriangle := abs_sub_abs_le_abs_sub y x
    rw [abs_sub_comm] at htriangle
    have htiny : (2 : ℚ) ^ (-1022 : ℤ) ≤ 1 / 4 := by
      calc (2 : ℚ) ^ (-1022 : ℤ) ≤ 2 ^ (-2 : ℤ) := zpow_le_zpow_right₀ (by norm_num) (by norm_num)
        _ = 1 / 4 := by norm_num
    linarith

/-! ## Sums -/

theorem foldl_add_exact (values : List ℚ) (total : ℚ)
    (h : ∀ n ≤ values.length, Fits (total + (values.take n).sum)) :
    values.foldl add total = total + values.sum := by
  induction values generalizing total with
  | nil => simp
  | cons value values ih =>
    have hfirst : Fits (total + value) := by simpa using h 1 (by simp)
    rw [List.foldl_cons, add, nearest_of_fits hfirst, ih, List.sum_cons, add_assoc]
    intro n hn
    have := h (n + 1) (Nat.succ_le_succ hn)
    rwa [List.take_succ_cons, List.sum_cons, ← add_assoc] at this

theorem sum_exact {values : List ℚ} (h : ∀ n ≤ values.length, Fits (values.take n).sum) :
    sum values = values.sum := by
  rw [sum, foldl_add_exact values 0 (by simpa using h), zero_add]

theorem fits_foldl_add (values : List ℚ) {total : ℚ} (h : Fits total) :
    Fits (values.foldl add total) := by
  induction values generalizing total with
  | nil => exact h
  | cons value values ih => exact ih (fits_nearest _)

theorem fits_sum (values : List ℚ) : Fits (sum values) := fits_foldl_add values fits_zero

theorem sum_map_filter {α : Type} {f : α → ℚ} {p : α → Bool} {l : List α}
    (h : ∀ a ∈ l, p a = false → f a = 0) : sum (l.map f) = sum ((l.filter p).map f) := by
  have hfold : ∀ (l : List α) (total : ℚ), Fits total → (∀ a ∈ l, p a = false → f a = 0) →
      (l.map f).foldl add total = ((l.filter p).map f).foldl add total := by
    intro l
    induction l with
    | nil => exact fun total _ _ => rfl
    | cons a l ih =>
      intro total htotal hzero
      obtain ⟨ha, hl⟩ := List.forall_mem_cons.mp hzero
      cases hp : p a with
      | true =>
        rw [List.filter_cons_of_pos hp]
        exact ih _ (fits_nearest _) hl
      | false =>
        rw [List.filter_cons_of_neg (by simp [hp]), List.map_cons, List.foldl_cons, ha hp, add,
          add_zero, nearest_of_fits htotal]
        exact ih total htotal hl
  exact hfold l 0 fits_zero h

theorem sum_singleton (h : Fits x) : sum [x] = x := by
  rw [sum, List.foldl_cons, List.foldl_nil, add, zero_add, nearest_of_fits h]

theorem fits_neg (h : Fits x) : Fits (-x) := by
  obtain ⟨m, e, hm, he, rfl⟩ := h
  exact ⟨-m, e, by rwa [abs_neg], he, by push_cast; ring⟩

theorem lost_eq_zero {total value : ℚ} (htotal : Fits total) (hvalue : Fits value)
    (h : Fits (total + value)) : lost total value = 0 := by
  unfold lost
  simp only [add, sub, nearest_of_fits h]
  split_ifs
  · rw [sub_add_cancel_left, nearest_of_fits (fits_neg hvalue), neg_add_cancel,
      nearest_of_fits fits_zero]
  · rw [sub_add_cancel_right, nearest_of_fits (fits_neg htotal), neg_add_cancel,
      nearest_of_fits fits_zero]

theorem compensated_exact {values : List ℚ} (hvalues : ∀ value ∈ values, Fits value)
    (h : ∀ n ≤ values.length, Fits (values.take n).sum) :
    compensated values = values.sum := by
  have hfold : ∀ (values : List ℚ) (total : ℚ), (∀ value ∈ values, Fits value) →
      (∀ n ≤ values.length, Fits (total + (values.take n).sum)) →
      values.foldl (fun (total, compensation) value =>
        (add total value, add compensation (lost total value))) (total, 0) =
        (total + values.sum, 0) := by
    intro values
    induction values with
    | nil => simp
    | cons value values ih =>
      intro total hvalues h
      have htotal : Fits total := by simpa using h 0 (Nat.zero_le _)
      have hfirst : Fits (total + value) := by simpa using h 1 (by simp)
      have hlost := lost_eq_zero htotal (hvalues value List.mem_cons_self) hfirst
      rw [List.foldl_cons, List.sum_cons, ← add_assoc]
      simp only [hlost, add, nearest_of_fits hfirst, add_zero, nearest_of_fits fits_zero]
      refine ih (total + value) (fun other hother => hvalues other (List.mem_cons_of_mem _ hother))
        fun n hn => ?_
      have := h (n + 1) (Nat.succ_le_succ hn)
      rwa [List.take_succ_cons, List.sum_cons, ← add_assoc] at this
  rw [compensated, hfold values 0 hvalues (by simpa using h)]
  simp

/-! ## Whole numbers and doubles together -/

/-- An unbounded whole number, or a double. -/
inductive Number
  | int (n : ℤ)
  | float (x : ℚ)
  deriving DecidableEq, Repr

namespace Number

def value : Number → ℚ
  | int n => n
  | float x => x

/-- As an operand beside a double. -/
def toFloat : Number → ℚ
  | int n => nearest n
  | float x => x

def floor : Number → ℤ
  | int n => n
  | float x => ⌊x⌋

protected def add : Number → Number → Number
  | int m, int n => int (m + n)
  | x, y => float (Binary64.add x.toFloat y.toFloat)

protected def sub : Number → Number → Number
  | int m, int n => int (m - n)
  | x, y => float (Binary64.sub x.toFloat y.toFloat)

protected def mul : Number → Number → Number
  | int m, int n => int (m * n)
  | x, y => float (Binary64.mul x.toFloat y.toFloat)

/-- The quotient of whole numbers is rounded once. -/
protected def div : Number → Number → Number
  | int m, int n => float (nearest (m / n))
  | x, y => float (Binary64.div x.toFloat y.toFloat)

instance : Add Number := ⟨Number.add⟩
instance : Sub Number := ⟨Number.sub⟩
instance : Mul Number := ⟨Number.mul⟩
instance : Div Number := ⟨Number.div⟩
instance : Coe ℤ Number := ⟨int⟩

end Number

end Binary64
