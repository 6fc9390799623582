import Mathlib.Data.BitVec
import Mathlib.Data.Fintype.EquivFin
import Mathlib.Tactic

/-
  SplitMix64 and an unbiased bounded draw from it.

  The generator's state walks through all 64-bit words by an odd increment, and a
  bijection of the words scrambles it. A bounded draw rejects the words below
  `2^64 % bound`, so that what is left is a multiple of `bound` words.

  The rejection loop has no bound of its own. It ends because it meets every word
  within `2^64` turns, the largest one among them, and that one is accepted.
-/

namespace SplitMix

abbrev Word := BitVec 64

def gamma : Word := 0x9e3779b97f4a7c15

def firstFactor : Word := 0xbf58476d1ce4e5b9

def secondFactor : Word := 0x94d049bb133111eb

/-- Scramble one state. -/
def mix (state : Word) : Word :=
  let value := (state ^^^ state >>> 30) * firstFactor
  let value := (value ^^^ value >>> 27) * secondFactor
  value ^^^ value >>> 31

/-- The next word, and the state behind it. -/
def next (state : Word) : Word × Word := (mix (state + gamma), state + gamma)

/-- Turn until a word reaches the threshold. -/
def accepted (threshold : Nat) : Nat → Word → Option (Word × Word)
  | 0, _ => none
  | fuel + 1, state =>
    let (value, state) := next state
    if threshold ≤ value.toNat then some (value, state) else accepted threshold fuel state

/-- An unbiased draw below `bound`. -/
def below (bound : Nat) (state : Word) : Option (Nat × Word) :=
  let threshold := (2 ^ 64 - bound) % bound
  (accepted threshold (2 ^ 64) state).map fun (value, state) => (value.toNat % bound, state)

/-! ## The scramble is a bijection -/

theorem xorShift_injective {k : Nat} (hk : 0 < k) :
    Function.Injective fun x : Word => x ^^^ x >>> k := by
  intro x y hxy
  have hbits : ∀ n i : Nat, 64 ≤ i + n → x.getLsbD i = y.getLsbD i := by
    intro n
    induction n with
    | zero =>
      intro i hi
      rw [BitVec.getLsbD_of_ge x i (by omega), BitVec.getLsbD_of_ge y i (by omega)]
    | succ n ih =>
      intro i hi
      have hbit := congrArg (fun z : Word => z.getLsbD i) hxy
      simp only [BitVec.getLsbD_xor, BitVec.getLsbD_ushiftRight] at hbit
      rw [ih (k + i) (by omega)] at hbit
      exact Bool.xor_left_inj.mp hbit
  exact BitVec.eq_of_getLsbD_eq fun i _ => hbits 64 i (by omega)

theorem mul_injective {a b : Word} (h : a * b = 1) : Function.Injective fun x : Word => x * a := by
  intro x y hxy
  calc x = x * a * b := by rw [mul_assoc, h, mul_one]
    _ = y * a * b := by rw [show x * a = y * a from hxy]
    _ = y := by rw [mul_assoc, h, mul_one]

theorem mix_injective : Function.Injective mix :=
  (xorShift_injective (k := 31) (by omega)).comp <|
    (mul_injective (a := secondFactor) (b := 0x319642b2d24d8ec3) (by decide)).comp <|
    (xorShift_injective (k := 27) (by omega)).comp <|
    (mul_injective (a := firstFactor) (b := 0x96de1b173f119089) (by decide)).comp
      (xorShift_injective (k := 30) (by omega))

theorem mix_surjective : Function.Surjective mix := by
  have hfinite : Finite Word := Finite.of_injective BitVec.toFin BitVec.toFin_injective
  exact Finite.injective_iff_surjective.mp mix_injective

/-! ## The walk meets every state -/

theorem exists_walk (state target : Word) :
    ∃ n : Nat, n < 2 ^ 64 ∧ state + BitVec.ofNat 64 (n + 1) * gamma = target := by
  -- the number of turns is the distance over the increment
  let turns : Word := (target - state) * 0xf1de83e19937733d
  refine ⟨(turns - 1).toNat, (turns - 1).isLt, ?_⟩
  have hturns : BitVec.ofNat 64 ((turns - 1).toNat + 1) = turns := by
    rw [BitVec.ofNat_add, BitVec.ofNat_toNat, BitVec.setWidth_eq]
    exact BitVec.sub_add_cancel _ _
  have hinverse : (0xf1de83e19937733d : Word) * gamma = 1 := by decide
  calc state + BitVec.ofNat 64 ((turns - 1).toNat + 1) * gamma
      = state + (target - state) * (0xf1de83e19937733d * gamma) := by rw [hturns, ← mul_assoc]
    _ = target := by rw [hinverse, mul_one, add_sub_cancel]

theorem accepted_isSome {threshold fuel : Nat} {state : Word}
    (h : ∃ n < fuel, threshold ≤ (mix (state + BitVec.ofNat 64 (n + 1) * gamma)).toNat) :
    (accepted threshold fuel state).isSome := by
  induction fuel generalizing state with
  | zero =>
    obtain ⟨n, hn, -⟩ := h
    omega
  | succ fuel ih =>
    obtain ⟨n, hn, hreach⟩ := h
    rw [accepted, next]
    dsimp only
    split
    · rfl
    · rename_i hrejected
      cases n with
      | zero =>
        rw [show BitVec.ofNat 64 (0 + 1) * gamma = gamma from BitVec.one_mul _] at hreach
        exact absurd hreach hrejected
      | succ n =>
        refine ih ⟨n, by omega, ?_⟩
        have hstep : BitVec.ofNat 64 (n + 1 + 1) * gamma =
            gamma + BitVec.ofNat 64 (n + 1) * gamma := by
          rw [BitVec.ofNat_add (n + 1) 1, BitVec.add_mul, BitVec.one_mul, BitVec.add_comm]
        rwa [hstep, ← BitVec.add_assoc] at hreach

theorem below_spec {bound : Nat} (hbound : 0 < bound) (state : Word) :
    ∃ (value : Nat) (state' : Word), below bound state = some (value, state') ∧ value < bound := by
  have hthreshold : (2 ^ 64 - bound) % bound ≤ (BitVec.allOnes 64).toNat := by
    have hle : (2 ^ 64 - bound) % bound ≤ 2 ^ 64 - bound := Nat.mod_le _ _
    rw [BitVec.toNat_allOnes]
    omega
  obtain ⟨top, htop⟩ := mix_surjective (BitVec.allOnes 64)
  obtain ⟨n, hn, hwalk⟩ := exists_walk state top
  obtain ⟨⟨value, state'⟩, haccepted⟩ := Option.isSome_iff_exists.mp
    (@accepted_isSome ((2 ^ 64 - bound) % bound) _ state ⟨n, hn, by rwa [hwalk, htop]⟩)
  exact ⟨value.toNat % bound, state', by rw [below, haccepted]; rfl, Nat.mod_lt _ hbound⟩

theorem below_isSome {bound : Nat} (hbound : 0 < bound) (state : Word) :
    (below bound state).isSome := by
  obtain ⟨value, state', hdraw, -⟩ := below_spec hbound state
  rw [hdraw]
  rfl

end SplitMix
