import ServingSim.Common.Checked
import ServingSim.Kv.RunningCharge

/-
  How many tokens of context a number of units holds (`tokens_fitting`).

  The source halves an interval of context lengths around the longest one that
  still fits. The interval starts at `units * block_tokens`: it is wide enough
  when some part charges a unit for every block, and too narrow for a layout
  whose entries each hold more tokens than a block does. The lengths it tries run
  up to `u64::MAX`, so the charge of one can overflow; that is an error here.

  What is proved:
    1. `tokensFitting_longest_iff` — the search ends with the longest fitting context
       exactly when the lengths it climbs to have a charge and one token past its
       range does not fit.
-/

namespace ServingSim

namespace KvAccounting

/-! ## Halving a range of lengths -/

section search

variable {fits : Nat → Bool} {fuel low high : Nat}

/-- A test that holds below every length it holds at. -/
def HoldsBelow (fits : Nat → Bool) : Prop :=
  ∀ len other, len ≤ other → fits other = true → fits len = true

theorem midpoint_within (h : low < high) :
    low < low + (high - low) ⌈/⌉ 2 ∧ low + (high - low) ⌈/⌉ 2 ≤ high := by
  rw [Nat.ceilDiv_eq_add_pred_div]
  omega

theorem searchFitting_within (fits : Nat → Bool) (fuel : Nat) (h : low ≤ high) :
    low ≤ searchFitting fits fuel low high ∧ searchFitting fits fuel low high ≤ high := by
  induction fuel generalizing low high with
  | zero => exact ⟨Nat.le_refl low, h⟩
  | succ fuel ih =>
    simp only [searchFitting]
    split
    · next hlt =>
      obtain ⟨hlow, hhigh⟩ := midpoint_within hlt
      split
      · have hupper := ih hhigh
        omega
      · have hlower : low ≤ low + (high - low) ⌈/⌉ 2 - 1 := by omega
        have hanswer := ih hlower
        omega
    · omega

theorem searchFitting_above (hbelow : HoldsBelow fits) (hfuel : high - low ≤ fuel) {len : Nat}
    (hlen : searchFitting fits fuel low high < len) (hhigh : len ≤ high) : fits len = false := by
  induction fuel generalizing low high with
  | zero =>
    have hanswer : low < len := hlen
    omega
  | succ fuel ih =>
    simp only [searchFitting] at hlen
    split at hlen
    · next hlt =>
      obtain ⟨hlow, hmid⟩ := midpoint_within hlt
      split at hlen
      · apply ih _ hlen hhigh
        omega
      · next hfit =>
        -- the upper half fails with its lowest length
        by_cases hhalf : len ≤ low + (high - low) ⌈/⌉ 2 - 1
        · apply ih _ hlen hhalf
          omega
        · rw [← Bool.not_eq_true]
          intro hpass
          apply hfit
          apply hbelow _ len _ hpass
          omega
    · omega

theorem searchFitting_greatest (hbelow : HoldsBelow fits) (hle : low ≤ high)
    (hfuel : high - low ≤ fuel) (len : Nat) :
    searchFitting fits fuel low high = len ↔
      low ≤ len ∧ len ≤ high ∧ (len = low ∨ fits len = true) ∧
        ∀ other, len < other → other ≤ high → fits other = false := by
  constructor
  · intro h
    subst h
    obtain ⟨hlow, hhigh⟩ := searchFitting_within fits fuel hle
    exact ⟨hlow, hhigh, searchFitting_fits fits fuel low high,
      fun other hother => searchFitting_above hbelow hfuel hother⟩
  · intro ⟨hlow, hhigh, hfit, habove⟩
    obtain ⟨hlow', hhigh'⟩ := searchFitting_within fits fuel hle
    rcases Nat.lt_trichotomy (searchFitting fits fuel low high) len with hlt | heq | hgt
    · have hfail := searchFitting_above hbelow hfuel hlt hhigh
      rcases hfit with rfl | hpass
      · omega
      · simp [hpass] at hfail
    · exact heq
    · have hfail := habove _ hgt hhigh'
      rcases searchFitting_fits fits fuel low high with hanswer | hpass
      · omega
      · simp [hpass] at hfail

theorem searchFitting_fuel (hbelow : HoldsBelow fits) (hle : low ≤ high)
    (hfuel : high - low ≤ fuel) (more : Nat) :
    searchFitting fits (fuel + more) low high = searchFitting fits fuel low high := by
  apply (searchFitting_greatest hbelow hle (by omega) _).mpr
  exact (searchFitting_greatest hbelow hle hfuel _).mp rfl

end search

/-! ## Charges in `u64` -/

variable (acc : KvAccounting)

def perTokenUnitsU64 (len : Nat) : Except String Nat :=
  if len = 0 then .ok 0
  else do
    let allocated ← mulWithin 64 (len ⌈/⌉ acc.blockTokens) acc.blockTokens
    acc.perToken.foldlM (fun total part => do
      let charge ← mulWithin 64 part.unitsPerEntry (allocated ⌈/⌉ part.tokensPerEntry)
      addWithin 64 total charge) 0

def windowUnitsU64 (len : Nat) (kept : Nat → Except String Nat) : Except String Nat :=
  acc.windows.foldlM (fun total part => do
    let tokens ← kept part.windowTokens
    let charge ← mulWithin 64 part.unitsPerToken (min len tokens)
    addWithin 64 total charge) 0

/-- `heldWhileRunning`, failing where a product or a sum does not fit a `u64`. -/
def heldWhileRunningU64 (len stepTokens : Nat) : Except String Nat :=
  match acc.linearUnitsPerToken with
  | some unitsPerToken => do
    let tokens ← mulWithin 64 len unitsPerToken
    addWithin 64 tokens acc.stateUnits
  | none => do
    let window ←
      match acc.overhead with
      | .vllm => acc.windowUnitsU64 len fun w => do
        let previous ← checkedSub w 1
        addWithin 64 previous (max stepTokens 1)
      | .none => acc.windowUnitsU64 len .ok
    let perToken ← acc.perTokenUnitsU64 len
    let held ← addWithin 64 perToken window
    addWithin 64 held acc.stateUnits

/-- The halving, with a test that can fail. -/
def searchFittingU64 (fits : Nat → Except String Bool) : Nat → Nat → Nat → Except String Nat
  | 0, low, _ => .ok low
  | fuel + 1, low, high =>
    if low < high then do
      let mid := low + (high - low) ⌈/⌉ 2
      if ← fits mid then searchFittingU64 fits fuel mid high
      else searchFittingU64 fits fuel low (mid - 1)
    else .ok low

/-- The longest context whose running charge fits `units`. -/
def tokensFitting (units : Nat) : Except String Nat :=
  let high := max (min (units * acc.blockTokens) (2 ^ 64 - 1)) 1
  searchFittingU64 (fun mid => do
    let held ← acc.heldWhileRunningU64 mid 1
    return decide (held ≤ units)) high 0 high

theorem addWithin_eq_ok_iff {bits a b c : Nat} :
    addWithin bits a b = .ok c ↔ a + b < 2 ^ bits ∧ c = a + b := by
  unfold addWithin
  split <;> simp_all [eq_comm]

theorem mulWithin_eq_ok_iff {bits a b c : Nat} :
    mulWithin bits a b = .ok c ↔ a * b < 2 ^ bits ∧ c = a * b := by
  unfold mulWithin
  split <;> simp_all [eq_comm]

theorem foldlM_charges_iff {α : Type} {l : List α} {charge : α → Except String Nat} {f : α → Nat}
    (hcharge : ∀ x ∈ l, ∀ c, charge x = .ok c ↔ f x < 2 ^ 64 ∧ c = f x) {total c : Nat}
    (htotal : total < 2 ^ 64) :
    (l.foldlM (fun total x => do
      let charged ← charge x
      addWithin 64 total charged) total) = .ok c ↔
      total + (l.map f).sum < 2 ^ 64 ∧ c = total + (l.map f).sum := by
  induction l generalizing total with
  | nil =>
    simp only [List.foldlM_nil, pure, Except.pure, Except.ok.injEq, List.map_nil, List.sum_nil,
      Nat.add_zero, htotal, true_and]
    exact eq_comm
  | cons x l ih =>
    rw [List.foldlM_cons, List.map_cons, List.sum_cons, ← Nat.add_assoc]
    simp only [bind_eq_ok_iff, hcharge x List.mem_cons_self, addWithin_eq_ok_iff]
    constructor
    · rintro ⟨total', ⟨-, ⟨-, rfl⟩, hsum, rfl⟩, hrest⟩
      exact (ih (fun y hy => hcharge y (List.mem_cons_of_mem _ hy)) hsum).mp hrest
    · rintro ⟨hsum, rfl⟩
      have hfirst : total + f x < 2 ^ 64 := by omega
      exact ⟨_, ⟨_, ⟨by omega, rfl⟩, hfirst, rfl⟩,
        (ih (fun y hy => hcharge y (List.mem_cons_of_mem _ hy)) hfirst).mpr ⟨hsum, rfl⟩⟩

/-- A length whose running charge fits a `u64`, with what is rounded up on the way. -/
def Countable (len : Nat) : Prop :=
  acc.heldWhileRunning len 1 < 2 ^ 64 ∧ (acc.linearUnitsPerToken = none →
      (acc.overhead = .vllm → ∀ part ∈ acc.windows, part.windowTokens < 2 ^ 64) ∧
      (len ⌈/⌉ acc.blockTokens) * acc.blockTokens < 2 ^ 64)

instance (len : Nat) : Decidable (acc.Countable len) :=
  inferInstanceAs (Decidable (_ ∧ (_ → _ ∧ _)))

theorem perTokenUnitsU64_eq_ok_iff {len c : Nat} : acc.perTokenUnitsU64 len = .ok c ↔
      ((len ⌈/⌉ acc.blockTokens) * acc.blockTokens < 2 ^ 64 ∧ acc.perTokenUnits len < 2 ^ 64) ∧
        c = acc.perTokenUnits len := by
  unfold perTokenUnitsU64 perTokenUnits
  by_cases hzero : len = 0
  · subst hzero
    simp [eq_comm]
  · simp only [hzero, if_false, bind_eq_ok_iff, mulWithin_eq_ok_iff]
    have hfold := fun allocated => @foldlM_charges_iff _ acc.perToken
      (fun part => mulWithin 64 part.unitsPerEntry (allocated ⌈/⌉ part.tokensPerEntry)) _
      (fun part _ c => mulWithin_eq_ok_iff) 0 c (by norm_num)
    simp only [Nat.zero_add] at hfold
    constructor
    · rintro ⟨allocated, ⟨hallocated, rfl⟩, hsum⟩
      obtain ⟨hlt, hc⟩ := (hfold _).mp hsum
      exact ⟨⟨hallocated, hlt⟩, hc⟩
    · rintro ⟨⟨hallocated, hlt⟩, hc⟩
      exact ⟨_, ⟨hallocated, rfl⟩, (hfold _).mpr ⟨hlt, hc⟩⟩

theorem windowUnitsU64_eq_ok_iff {len c : Nat} {kept : Nat → Except String Nat}
    (tokens : Nat → Nat)
    (hkept : ∀ part ∈ acc.windows, kept part.windowTokens = .ok (tokens part.windowTokens)) :
    acc.windowUnitsU64 len kept = .ok c ↔
      acc.windowUnits len tokens < 2 ^ 64 ∧ c = acc.windowUnits len tokens := by
  have hfold := @foldlM_charges_iff _ acc.windows
    (fun part => do
      let tokens ← kept part.windowTokens
      mulWithin 64 part.unitsPerToken (min len tokens))
    (fun part => part.unitsPerToken * min len (tokens part.windowTokens))
    (fun part hpart c => by rw [hkept part hpart, ok_bind, mulWithin_eq_ok_iff]) 0 c (by norm_num)
  simp only [Nat.zero_add, bind_assoc] at hfold
  exact hfold

theorem foldlM_ok_of_mem {α β : Type} {f : β → α → Except String β} {l : List α} {b c : β}
    (h : l.foldlM f b = .ok c) {x : α} (hx : x ∈ l) : ∃ b' c', f b' x = .ok c' := by
  induction l generalizing b with
  | nil => cases hx
  | cons y l ih =>
    rw [List.foldlM_cons, bind_eq_ok_iff] at h
    obtain ⟨b', hb', hrest⟩ := h
    rcases List.mem_cons.mp hx with rfl | hx
    · exact ⟨b, b', hb'⟩
    · exact ih hrest hx

theorem heldWhileRunningU64_eq_ok_iff {len c : Nat} : acc.heldWhileRunningU64 len 1 = .ok c ↔
      acc.Countable len ∧ c = acc.heldWhileRunning len 1 := by
  unfold heldWhileRunningU64 Countable heldWhileRunning
  cases hlinear : acc.linearUnitsPerToken with
  | some unitsPerToken =>
    simp only [bind_eq_ok_iff, mulWithin_eq_ok_iff, addWithin_eq_ok_iff, reduceCtorEq,
      false_implies, and_true]
    constructor
    · rintro ⟨_, ⟨-, rfl⟩, hsum, hc⟩
      exact ⟨hsum, hc⟩
    · rintro ⟨hsum, hc⟩
      exact ⟨_, ⟨by omega, rfl⟩, hsum, hc⟩
  | none =>
    -- the window part, under either overhead
    have hwindow : ∀ {windows : Except String Nat} {units : Nat} {bounded : Prop},
        (∀ w, windows = .ok w ↔ (bounded ∧ units < 2 ^ 64) ∧ w = units) →
        ((do
          let window ← windows
          let perToken ← acc.perTokenUnitsU64 len
          let held ← addWithin 64 perToken window
          addWithin 64 held acc.stateUnits : Except String Nat) = .ok c ↔
        (acc.perTokenUnits len + units + acc.stateUnits < 2 ^ 64 ∧ (bounded ∧
          (len ⌈/⌉ acc.blockTokens) * acc.blockTokens < 2 ^ 64)) ∧
          c = acc.perTokenUnits len + units + acc.stateUnits) := by
      intro windows units bounded hwindows
      simp only [bind_eq_ok_iff, hwindows, perTokenUnitsU64_eq_ok_iff, addWithin_eq_ok_iff]
      constructor
      · rintro ⟨_, ⟨⟨hbounded, -⟩, rfl⟩, _, ⟨⟨hblocks, -⟩, rfl⟩, _, ⟨-, rfl⟩, hsum, hc⟩
        exact ⟨⟨hsum, hbounded, hblocks⟩, hc⟩
      · rintro ⟨⟨hsum, hbounded, hblocks⟩, hc⟩
        exact ⟨_, ⟨⟨hbounded, by omega⟩, rfl⟩, _, ⟨⟨hblocks, by omega⟩, rfl⟩, _,
          ⟨by omega, rfl⟩, hsum, hc⟩
    cases hoverhead : acc.overhead with
    | none =>
      simp only [reduceCtorEq, false_implies, true_implies]
      refine hwindow fun w => ?_
      rw [acc.windowUnitsU64_eq_ok_iff (fun w => w) fun part _ => rfl, true_and]
    | vllm =>
      simp only [true_implies]
      refine hwindow fun w => ?_
      by_cases hbounded : ∀ part ∈ acc.windows, part.windowTokens < 2 ^ 64
      · have hkept : ∀ part ∈ acc.windows, (do
            let previous ← checkedSub part.windowTokens 1
            addWithin 64 previous (max 1 1)) = .ok (part.windowTokens - 1 + max 1 1) := by
          intro part hpart
          have hpos := acc.windowTokens_pos hpart
          have hlt := hbounded part hpart
          rw [checkedSub_of_le hpos, ok_bind, addWithin_of_lt (by omega)]
        rw [acc.windowUnitsU64_eq_ok_iff (fun w => w - 1 + max 1 1) hkept]
        exact ⟨fun h => ⟨⟨hbounded, h.1⟩, h.2⟩, fun h => ⟨h.1.2, h.2⟩⟩
      · refine iff_of_false (fun hok => hbounded fun part hpart => ?_) fun h => hbounded h.1.1
        obtain ⟨_, _, hpart'⟩ := foldlM_ok_of_mem hok hpart
        simp only [bind_eq_ok_iff, checkedSub_eq_ok_iff, addWithin_eq_ok_iff] at hpart'
        obtain ⟨_, ⟨_, ⟨hpos, rfl⟩, hlt, -⟩, -⟩ := hpart'
        omega

theorem Countable.mono {len other : Nat} (h : acc.Countable other) (hle : len ≤ other) :
    acc.Countable len := by
  refine ⟨lt_of_le_of_lt (acc.held_mono 1 hle) h.1, fun hlinear => ?_⟩
  obtain ⟨hwindows, hblocks⟩ := h.2 hlinear
  refine ⟨hwindows, lt_of_le_of_lt (Nat.mul_le_mul_right _ ?_) hblocks⟩
  exact (gc_mul_ceilDiv acc.blockTokens_pos).monotone_l hle

/-! ## A search whose test can fail -/

section search

variable {fits : Nat → Except String Bool} {passes : Nat → Bool} {countable : Nat → Prop}
  {fuel low high : Nat}

theorem searchFittingU64_iff (hbelow : HoldsBelow passes)
    (hfits : ∀ len passed, fits len = .ok passed ↔ countable len ∧ passed = passes len)
    (hcountable : ∀ len other, len ≤ other → countable other → countable len)
    (hfuel : high - low ≤ fuel) {len : Nat} :
    searchFittingU64 fits fuel low high = .ok len ↔
      (∀ i, (i = 0 ∨ passes (high - (high - low) / 2 ^ i) = true) → (high - low) / 2 ^ i ≠ 0 →
        countable (high - (high - low) / 2 ^ (i + 1))) ∧
      len = searchFitting passes fuel low high := by
  -- while the search climbs, its i-th probe is `high - (high - low) / 2 ^ (i + 1)`
  induction fuel generalizing low high with
  | zero =>
    have hnone : ∀ i, (high - low) / 2 ^ i = 0 := fun i => by
      rw [Nat.le_zero.mp hfuel, Nat.zero_div]
    simp only [searchFittingU64, searchFitting, Except.ok.injEq, hnone, ne_eq, not_true_eq_false,
      false_implies, implies_true, true_and]
    exact eq_comm
  | succ fuel ih =>
    simp only [searchFittingU64, searchFitting]
    by_cases hlt : low < high
    · obtain ⟨hlow, hmid⟩ := midpoint_within hlt
      have hhalf : low + (high - low) ⌈/⌉ 2 = high - (high - low) / 2 := by
        rw [Nat.ceilDiv_eq_add_pred_div]
        omega
      rw [if_pos hlt, if_pos hlt, bind_eq_ok_iff]
      simp only [hfits]
      by_cases hpass : passes (low + (high - low) ⌈/⌉ 2) = true
      · -- the climb goes on from the middle, half as far
        have hrest : high - (low + (high - low) ⌈/⌉ 2) = (high - low) / 2 := by omega
        have hhalves : ∀ i, (high - low) / 2 / 2 ^ i = (high - low) / 2 ^ (i + 1) := fun i => by
          rw [Nat.div_div_eq_div_mul, Nat.pow_succ']
        have hnext := @ih (low + (high - low) ⌈/⌉ 2) high (by omega)
        rw [hrest] at hnext
        simp only [hhalves] at hnext
        constructor
        · rintro ⟨_, ⟨hmiddle, rfl⟩, hrun⟩
          rw [if_pos hpass] at hrun ⊢
          obtain ⟨hclimb, hlen⟩ := hnext.mp hrun
          refine ⟨fun i hi hne => ?_, hlen⟩
          cases i with
          | zero =>
            rw [Nat.pow_one, ← hhalf]
            exact hmiddle
          | succ i =>
            refine hclimb i (.inr ?_) hne
            exact hi.resolve_left (Nat.succ_ne_zero i)
        · rintro ⟨hclimb, hlen⟩
          have hmiddle := hclimb 0 (.inl rfl) (by rw [Nat.pow_zero, Nat.div_one]; omega)
          rw [Nat.pow_one, ← hhalf] at hmiddle
          refine ⟨_, ⟨hmiddle, rfl⟩, ?_⟩
          rw [if_pos hpass] at hlen ⊢
          refine hnext.mpr ⟨fun i hi hne => hclimb (i + 1) (.inr ?_) hne, hlen⟩
          rcases hi with rfl | hi
          · rw [Nat.pow_one, ← hhalf]
            exact hpass
          · exact hi
      · -- below the middle everything has a charge
        have hdown : countable (low + (high - low) ⌈/⌉ 2) →
            ∀ i, (low + (high - low) ⌈/⌉ 2 - 1 - low) / 2 ^ i ≠ 0 →
              countable (low + (high - low) ⌈/⌉ 2 - 1 -
                (low + (high - low) ⌈/⌉ 2 - 1 - low) / 2 ^ (i + 1)) :=
          fun hmiddle i _ => hcountable _ _ ((Nat.sub_le _ _).trans (Nat.sub_le _ _)) hmiddle
        have hnext := @ih low (low + (high - low) ⌈/⌉ 2 - 1) (by omega)
        have hover : ∀ i, passes (high - (high - low) / 2 ^ (i + 1)) = false := fun i => by
          rw [← Bool.not_eq_true]
          refine fun hi => hpass (hbelow _ _ ?_ hi)
          rw [hhalf, Nat.pow_succ', ← Nat.div_div_eq_div_mul]
          exact Nat.sub_le_sub_left (Nat.div_le_self _ _) _
        constructor
        · rintro ⟨_, ⟨hmiddle, rfl⟩, hrun⟩
          rw [if_neg hpass] at hrun ⊢
          refine ⟨fun i hi hne => ?_, (hnext.mp hrun).2⟩
          cases i with
          | zero =>
            rw [Nat.pow_one, ← hhalf]
            exact hmiddle
          | succ i =>
            rcases hi with hi | hi
            · exact absurd hi (Nat.succ_ne_zero i)
            · rw [hover i] at hi
              exact absurd hi Bool.false_ne_true
        · rintro ⟨hclimb, hlen⟩
          have hmiddle := hclimb 0 (.inl rfl) (by rw [Nat.pow_zero, Nat.div_one]; omega)
          rw [Nat.pow_one, ← hhalf] at hmiddle
          refine ⟨_, ⟨hmiddle, rfl⟩, ?_⟩
          rw [if_neg hpass] at hlen ⊢
          exact hnext.mpr ⟨fun i _ => hdown hmiddle i, hlen⟩
    · rw [if_neg hlt, if_neg hlt]
      have hnone : ∀ i, (high - low) / 2 ^ i = 0 := fun i => by
        rw [Nat.sub_eq_zero_of_le (not_lt.mp hlt), Nat.zero_div]
      simp only [Except.ok.injEq, hnone, ne_eq, not_true_eq_false, false_implies, implies_true,
        true_and]
      exact eq_comm

end search

/-! ## The longest fitting context -/

variable (units : Nat)

/-- A length whose running charge is at most `units`. -/
def Fits (len : Nat) : Prop := acc.Countable len ∧ acc.heldWhileRunning len 1 ≤ units

instance (len : Nat) : Decidable (acc.Fits units len) :=
  inferInstanceAs (Decidable (_ ∧ _))

theorem fits_iff {len : Nat} :
    acc.Fits units len ↔ ∃ held, acc.heldWhileRunningU64 len 1 = .ok held ∧ held ≤ units := by
  simp only [heldWhileRunningU64_eq_ok_iff]
  exact ⟨fun h => ⟨_, ⟨h.1, rfl⟩, h.2⟩, fun ⟨_, ⟨hcountable, hheld⟩, hle⟩ =>
    ⟨hcountable, hheld ▸ hle⟩⟩

theorem Fits.mono {len other : Nat} (h : acc.Fits units other) (hle : len ≤ other) :
    acc.Fits units len :=
  ⟨h.1.mono acc hle, (acc.held_mono 1 hle).trans h.2⟩

/-- The context lengths, of those a `u64` counts, whose running charge is at most `units`. -/
def fittingLengths : Set Nat := {len | len < 2 ^ 64 ∧ acc.Fits units len}

/-- The longest context whose running charge fits, and 0 when none does. -/
def LongestFitting (len : Nat) : Prop :=
  IsGreatest (acc.fittingLengths units) len ∨ acc.fittingLengths units = ∅ ∧ len = 0

/-- Where the halving starts. -/
def fittingRange : Nat := max (min (units * acc.blockTokens) (2 ^ 64 - 1)) 1

/-- Every length that the halving climbs to, while all before it fit, has a charge. -/
def ClimbCountable : Prop :=
  ∀ i, (i = 0 ∨ acc.Fits units (acc.fittingRange units - acc.fittingRange units / 2 ^ i)) →
    acc.fittingRange units / 2 ^ i ≠ 0 →
      acc.Countable (acc.fittingRange units - acc.fittingRange units / 2 ^ (i + 1))

theorem fits_holdsBelow : HoldsBelow fun len => decide (acc.Fits units len) := by
  intro len other hle hother
  rw [decide_eq_true_eq] at hother ⊢
  exact hother.mono acc units hle

theorem tokensFitting_eq_ok_iff {len : Nat} :
    acc.tokensFitting units = .ok len ↔ acc.ClimbCountable units ∧
      len = searchFitting (fun len => decide (acc.Fits units len)) (acc.fittingRange units) 0
        (acc.fittingRange units) := by
  have hfits : ∀ (len : Nat) (passed : Bool), (do
        let held ← acc.heldWhileRunningU64 len 1
        return decide (held ≤ units) : Except String Bool) = .ok passed ↔
        acc.Countable len ∧ passed = decide (acc.Fits units len) := by
    intro len passed
    simp only [bind_eq_ok_iff, heldWhileRunningU64_eq_ok_iff, pure, Except.pure, Except.ok.injEq]
    constructor
    · rintro ⟨_, ⟨hcountable, rfl⟩, rfl⟩
      exact ⟨hcountable, decide_eq_decide.mpr ⟨fun hle => ⟨hcountable, hle⟩, fun h => h.2⟩⟩
    · rintro ⟨hcountable, rfl⟩
      exact ⟨_, ⟨hcountable, rfl⟩,
        decide_eq_decide.mpr ⟨fun hle => ⟨hcountable, hle⟩, fun h => h.2⟩⟩
  have hrun : searchFittingU64 _ (acc.fittingRange units) 0 (acc.fittingRange units) =
      .ok len ↔ _ :=
    searchFittingU64_iff (acc.fits_holdsBelow units) hfits
      (fun len other hle hother => hother.mono acc hle) (Nat.sub_le _ _)
  simp only [Nat.sub_zero, decide_eq_true_eq] at hrun
  exact hrun

theorem tokensFitting_spec {len : Nat} (h : acc.tokensFitting units = .ok len) :
    len ≤ acc.fittingRange units ∧ (len = 0 ∨ acc.Fits units len) ∧
      ∀ other, len < other → other ≤ acc.fittingRange units → ¬acc.Fits units other := by
  obtain ⟨-, hlen⟩ := (acc.tokensFitting_eq_ok_iff units).mp h
  have hgreatest := (searchFitting_greatest (acc.fits_holdsBelow units)
    (Nat.zero_le (acc.fittingRange units)) (Nat.sub_le _ _) len).mp hlen.symm
  simpa only [decide_eq_true_eq, decide_eq_false_iff_not, Nat.zero_le, true_and] using hgreatest

/-- The search inverts the running charge exactly when every length it climbs to has one, and
its range reaches the last `u64` or one token past its range does not fit. -/
theorem tokensFitting_longest_iff (acc : KvAccounting) (units : Nat) :
    (∃ len, acc.tokensFitting units = .ok len ∧ acc.LongestFitting units len) ↔
      acc.ClimbCountable units ∧ (2 ^ 64 - 1 ≤ units * acc.blockTokens ∨
          ¬acc.Fits units (max (units * acc.blockTokens) 1 + 1)) := by
  constructor
  · rintro ⟨len, hrun, hlongest⟩
    obtain ⟨hrange, -, -⟩ := acc.tokensFitting_spec units hrun
    refine ⟨((acc.tokensFitting_eq_ok_iff units).mp hrun).1, ?_⟩
    by_contra hshort
    obtain ⟨hsmall, hpast⟩ := not_or.mp hshort
    have hpast := not_not.mp hpast
    have hmem : max (units * acc.blockTokens) 1 + 1 ∈ acc.fittingLengths units := ⟨by omega, hpast⟩
    unfold fittingRange at hrange
    rcases hlongest with hgreatest | ⟨hnone, -⟩
    · have hle := hgreatest.2 hmem
      omega
    · rw [hnone] at hmem
      exact hmem
  · rintro ⟨hclimb, hwide⟩
    obtain ⟨len, hanswer⟩ : ∃ len, acc.tokensFitting units = .ok len :=
      ⟨_, (acc.tokensFitting_eq_ok_iff units).mpr ⟨hclimb, rfl⟩⟩
    obtain ⟨hrange, hfit, habove⟩ := acc.tokensFitting_spec units hanswer
    refine ⟨len, hanswer, ?_⟩
    -- nothing above the answer fits, inside the range or past it
    have hupper : len ∈ upperBounds (acc.fittingLengths units) := by
      intro other ⟨hother, hfits⟩
      by_contra hlt
      have hlt := Nat.not_le.mp hlt
      by_cases hin : other ≤ acc.fittingRange units
      · exact habove other hlt hin hfits
      · unfold fittingRange at hin
        rcases hwide with hall | hpast
        · omega
        · exact hpast (hfits.mono acc units (by omega))
    have hu64 : len < 2 ^ 64 := by
      unfold fittingRange at hrange
      omega
    by_cases hfits : acc.Fits units len
    · exact .inl ⟨⟨hu64, hfits⟩, hupper⟩
    · have hzero := hfit.resolve_right hfits
      refine .inr ⟨Set.eq_empty_iff_forall_notMem.mpr fun other hother => hfits ?_, hzero⟩
      rw [hzero]
      exact hother.2.mono acc units (Nat.zero_le other)

/-- Four tokens an entry, in blocks of one token. -/
def compressedTokens : KvAccounting where
  layout := { parts := [KvCachePart.compressed "c4_kv" 4 1] }
  options := {}
  capacityUnits := 100
  layout_wellFormed := (KvCacheLayout.validate_ok_iff _).mp rfl
  interval_fits := by simp [ResumeIntervalFits]
  capacity_pos := Nat.succ_pos 99

/-- A hundred entries of four tokens hold four hundred tokens; the search answers a hundred. -/
theorem tokensFitting_not_longest :
    compressedTokens.tokensFitting 100 = .ok 100 ∧ ¬compressedTokens.LongestFitting 100 100 := by
  have hmem : 400 ∈ compressedTokens.fittingLengths 100 :=
    ⟨by norm_num, (compressedTokens.fits_iff 100).mpr ⟨100, by decide +kernel, le_refl 100⟩⟩
  refine ⟨by decide +kernel, fun hlongest => ?_⟩
  rcases hlongest with hgreatest | ⟨hnone, -⟩
  · have hle := hgreatest.2 hmem
    omega
  · rw [hnone] at hmem
    exact hmem

end KvAccounting

end ServingSim
