import ServingSim.Common.Ensure

/-
  Unsigned arithmetic that fails where the machine's would wrap (`+`, `-` and `*` on `u32`
  and `u64`).
-/

namespace ServingSim

theorem ok_bind {α β : Type} (a : α) (f : α → Except String β) :
    ((Except.ok a : Except String α) >>= f) = f a :=
  rfl

/-- A difference; a negative one is an error. -/
def checkedSub (a b : Nat) : Except String Nat :=
  if b ≤ a then .ok (a - b) else .error "attempt to subtract with overflow"

@[simp] theorem checkedSub_eq_ok_iff {a b c : Nat} :
    checkedSub a b = .ok c ↔ b ≤ a ∧ c = a - b := by
  unfold checkedSub
  split <;> simp_all [eq_comm]

theorem checkedSub_of_le {a b : Nat} (h : b ≤ a) : checkedSub a b = .ok (a - b) :=
  checkedSub_eq_ok_iff.mpr ⟨h, rfl⟩

/-- A sum of `bits` bits. -/
def addWithin (bits a b : Nat) : Except String Nat :=
  if a + b < 2 ^ bits then .ok (a + b) else .error "attempt to add with overflow"

theorem addWithin_of_lt {bits a b : Nat} (h : a + b < 2 ^ bits) :
    addWithin bits a b = .ok (a + b) :=
  if_pos h

/-- A product of `bits` bits. -/
def mulWithin (bits a b : Nat) : Except String Nat :=
  if a * b < 2 ^ bits then .ok (a * b) else .error "attempt to multiply with overflow"

theorem mulWithin_of_lt {bits a b : Nat} (h : a * b < 2 ^ bits) :
    mulWithin bits a b = .ok (a * b) :=
  if_pos h

end ServingSim
