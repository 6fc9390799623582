import Mathlib.Tactic
import Mathlib.Logic.Relation
import Mathlib.Data.List.Nodup

/-
  Trees that are laid out in an array, every child behind its parent.

  A tree is the function from a place to the places of its children. Where the children
  of every place lie behind it and within the array, a recursion from a place ends after
  at most as many turns as there are places; a fold over the tree is the solution of one
  equation for each place, whatever the number of turns it was given.
-/

namespace ForwardTree

/-- Children lie behind their parent, within the array. -/
structure Forward (children : Nat → List Nat) (size : Nat) : Prop where
  behind : ∀ i, ∀ c ∈ children i, i < c
  within : ∀ i, ∀ c ∈ children i, c < size

/-- Every place is a child once, of one place. -/
structure Tree (children : Nat → List Nat) (size : Nat) : Prop extends Forward children size where
  nodup : ∀ i, (children i).Nodup
  unique : ∀ i j c, c ∈ children i → c ∈ children j → i = j

/-- The places reached from a place through children. -/
def Below (children : Nat → List Nat) : Nat → Nat → Prop :=
  Relation.ReflTransGen fun i c => c ∈ children i

section forward

variable {children : Nat → List Nat} {size : Nat}

theorem Forward.induction {P : Nat → Prop} (h : Forward children size)
    (hstep : ∀ i < size, (∀ c ∈ children i, P c) → P i) : ∀ i < size, P i := by
  have hmeasure : ∀ n i, i < size → size - i ≤ n → P i := by
    intro n
    induction n with
    | zero => exact fun i hi hn => absurd hn (by omega)
    | succ n ih =>
      intro i hi hn
      refine hstep i hi fun c hc => ih c (h.within i c hc) ?_
      have := h.behind i c hc
      omega
  exact fun i hi => hmeasure (size - i) i hi (le_refl _)

theorem Below.le (h : Forward children size) {i j : Nat} (hbelow : Below children i j) : i ≤ j := by
  induction hbelow with
  | refl => exact le_refl _
  | tail _ hchild ih => exact ih.trans (h.behind _ _ hchild).le

theorem Below.child {i c j : Nat} (hc : c ∈ children i) (h : Below children c j) :
    Below children i j := Relation.ReflTransGen.head hc h

theorem below_iff {i j : Nat} :
    Below children i j ↔ i = j ∨ ∃ c ∈ children i, Below children c j := by
  constructor
  · intro h
    rcases Relation.ReflTransGen.cases_head h with heq | ⟨c, hc, hrest⟩
    · exact .inl heq
    · exact .inr ⟨c, hc, hrest⟩
  · rintro (rfl | ⟨c, hc, hrest⟩)
    · exact Relation.ReflTransGen.refl
    · exact hrest.child hc

theorem Tree.siblings_apart (h : Tree children size) {i c c' j : Nat} (hc : c ∈ children i)
    (hc' : c' ∈ children i) (hne : c ≠ c') (hbelow : Below children c j) :
    ¬Below children c' j := by
  intro hbelow'
  have hunique : Relator.RightUnique fun c i => c ∈ children i :=
    fun c i j hi hj => h.unique i j c hi hj
  -- both lead up from the same place, so one child is below the other
  have hup : ∀ {c}, Below children c j → Relation.ReflTransGen (fun c i => c ∈ children i) j c :=
    fun hbelow => Relation.ReflTransGen.swap _ _ hbelow
  have hbehind : ∀ {a b : Nat}, a ∈ children i → b ∈ children i → a ≠ b →
      ¬Relation.ReflTransGen (fun c i => c ∈ children i) a b := by
    intro a b ha hb hab hreach
    rcases Relation.ReflTransGen.cases_head hreach with heq | ⟨parent, hparent, hrest⟩
    · exact hab heq
    · obtain rfl := h.unique _ _ _ ha hparent
      have hle : b ≤ i := Below.le h.toForward (Relation.ReflTransGen.swap _ _ hrest)
      exact absurd (h.behind i b hb) (not_lt.mpr hle)
  rcases Relation.ReflTransGen.total_of_right_unique hunique (hup hbelow) (hup hbelow') with
    hreach | hreach
  · exact hbehind hc hc' hne hreach
  · exact hbehind hc' hc hne.symm hreach

/-! ## Folds -/

section fold

variable {α : Type*}

/-- A fold of the tree below a place, in at most so many turns. -/
def fold [Inhabited α] (children : Nat → List Nat) (combine : Nat → List α → α) : Nat → Nat → α
  | 0, _ => default
  | turns + 1, i => combine i ((children i).map (fold children combine turns))

/-- A fold of the tree below a place. -/
def value [Inhabited α] (children : Nat → List Nat) (size : Nat) (combine : Nat → List α → α)
    (i : Nat) : α := fold children combine size i

variable [Inhabited α]

theorem fold_turns (h : Forward children size) (combine : Nat → List α → α) {turns turns' i : Nat}
    (hi : i < size) (hturns : size - i ≤ turns) (hturns' : size - i ≤ turns') :
    fold children combine turns i = fold children combine turns' i := by
  induction turns generalizing turns' i with
  | zero => exact absurd hturns (by omega)
  | succ turns ih =>
    obtain ⟨turns', rfl⟩ : ∃ n, turns' = n + 1 := ⟨turns' - 1, by omega⟩
    refine congrArg (combine i) (List.map_congr_left fun c hc => ?_)
    have hbehind := h.behind i c hc
    exact ih (h.within i c hc) (by omega) (by omega)

theorem value_eq (h : Forward children size) (combine : Nat → List α → α) {i : Nat}
    (hi : i < size) :
    value children size combine i = combine i ((children i).map (value children size combine)) := by
  obtain ⟨n, hn⟩ : ∃ n, size = n + 1 := ⟨size - 1, by omega⟩
  have hunfold : value children size combine i =
      combine i ((children i).map (fold children combine n)) := by
    rw [value, hn]
    rfl
  rw [hunfold]
  refine congrArg (combine i) (List.map_congr_left fun c hc => ?_)
  have hbehind := h.behind i c hc
  exact fold_turns h combine (h.within i c hc) (by omega) (by omega)

end fold

/-! ## Leaves -/

/-- The leaves below a place, in the order of the children. -/
def leavesBelow (children : Nat → List Nat) (size : Nat) (i : Nat) : List Nat :=
  value children size (fun i leaves => if children i = [] then [i] else leaves.flatten) i

theorem leavesBelow_eq (h : Forward children size) {i : Nat} (hi : i < size) :
    leavesBelow children size i =
      if children i = [] then [i] else (children i).flatMap (leavesBelow children size) := by
  rw [leavesBelow, value_eq h _ hi, List.flatMap_def]
  rfl

theorem mem_leavesBelow (h : Forward children size) {i : Nat} (hi : i < size) {j : Nat} :
    j ∈ leavesBelow children size i ↔ Below children i j ∧ children j = [] := by
  refine h.induction (P := fun i => j ∈ leavesBelow children size i ↔
    Below children i j ∧ children j = []) (fun i hi ih => ?_) i hi
  rw [leavesBelow_eq h hi, below_iff]
  by_cases hleaf : children i = []
  · rw [if_pos hleaf, List.mem_singleton, hleaf]
    constructor
    · rintro rfl
      exact ⟨.inl rfl, hleaf⟩
    · rintro ⟨rfl | ⟨c, hc, -⟩, -⟩
      · rfl
      · exact (List.not_mem_nil hc).elim
  · rw [if_neg hleaf, List.mem_flatMap]
    constructor
    · rintro ⟨c, hc, hmem⟩
      obtain ⟨hbelow, hj⟩ := (ih c hc).mp hmem
      exact ⟨.inr ⟨c, hc, hbelow⟩, hj⟩
    · rintro ⟨rfl | ⟨c, hc, hbelow⟩, hj⟩
      · exact absurd hj hleaf
      · exact ⟨c, hc, (ih c hc).mpr ⟨hbelow, hj⟩⟩

theorem nodup_leavesBelow (h : Tree children size) {i : Nat} (hi : i < size) :
    (leavesBelow children size i).Nodup := by
  refine h.induction (P := fun i => (leavesBelow children size i).Nodup)
    (fun i hi ih => ?_) i hi
  rw [leavesBelow_eq h.toForward hi]
  split
  · exact List.nodup_singleton i
  · refine List.nodup_flatMap.mpr ⟨ih, (h.nodup i).imp_of_mem fun {c c'} hc hc' hne => ?_⟩
    rw [Function.onFun, List.disjoint_left]
    intro j hj hj'
    exact h.siblings_apart hc hc' hne
      ((mem_leavesBelow h.toForward (h.within i c hc)).mp hj).1
      ((mem_leavesBelow h.toForward (h.within i c' hc')).mp hj').1

end forward

end ForwardTree
