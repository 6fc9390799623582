import ServingSim.Kv.StoreRuns

/-
  A store with the operations that were issued to it.

  A worker changes its store through the store's operations only. `IssuedStore`
  keeps, beside the store, the operations in the order they were issued since
  the store was new; that the store is what they lead to is a field. A statement
  about every prefix of the operations is a statement about every state the
  store has been in, also between two operations of one worker step.
-/

namespace ServingSim

structure IssuedStore (acc : KvAccounting) (n : Nat) where
  budget : PrefixCacheBudget
  ops : List (StoreOp n)
  store : KvCacheStore acc n
  store_eq : store = (KvCacheStore.new acc n budget).runOps ops

namespace IssuedStore

variable {acc : KvAccounting} {n : Nat}

def new (acc : KvAccounting) (n : Nat) (budget : PrefixCacheBudget) : IssuedStore acc n :=
  ⟨budget, [], KvCacheStore.new acc n budget, rfl⟩

def issue (kv : IssuedStore acc n) (op : StoreOp n) : IssuedStore acc n where
  budget := kv.budget
  ops := kv.ops ++ [op]
  store := op.apply kv.store
  store_eq := by
    rw [KvCacheStore.runOps, Run.run_append, kv.store_eq]
    rfl

@[simp] theorem store_issue (kv : IssuedStore acc n) (op : StoreOp n) :
    (kv.issue op).store = op.apply kv.store := rfl

/-- `t` is `s` after operations each of which met `C` where it was issued. -/
inductive Issues (C : KvCacheStore acc n → StoreOp n → Prop) (s : IssuedStore acc n) :
    IssuedStore acc n → Prop
  | refl : Issues C s s
  | issue {t : IssuedStore acc n} {op : StoreOp n} :
    Issues C s t → C t.store op → Issues C s (t.issue op)

namespace Issues

variable {C C' : KvCacheStore acc n → StoreOp n → Prop} {s t u : IssuedStore acc n}

theorem one {op : StoreOp n} (h : C s.store op) : Issues C s (s.issue op) := .issue .refl h

theorem trans (hst : Issues C s t) (htu : Issues C t u) : Issues C s u := by
  induction htu with
  | refl => exact hst
  | issue _ hop ih => exact .issue ih hop

theorem mono (hC : ∀ store op, C store op → C' store op) (h : Issues C s t) : Issues C' s t := by
  induction h with
  | refl => exact .refl
  | issue _ hop ih => exact .issue ih (hC _ _ hop)

theorem invariant {I : KvCacheStore acc n → Prop} (h : Issues C s t)
    (hstep : ∀ store op, I store → C store op → I (op.apply store)) (hs : I s.store) :
    I t.store := by
  induction h with
  | refl => exact hs
  | issue _ hop ih => exact hstep _ _ ih hop

theorem budget_eq (h : Issues C s t) : t.budget = s.budget := by
  induction h with
  | refl => rfl
  | issue _ _ ih => exact ih

end Issues

end IssuedStore

end ServingSim
