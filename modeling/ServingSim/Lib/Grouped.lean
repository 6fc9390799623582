import Mathlib.Tactic
import Mathlib.Data.List.Sort

/-
  Elements of a list grouped by a key, the keys ascending.

  This is what filling an ordered map of vectors from a list comes to. A group keeps
  the order of the list, and `reduced` keeps one number for each key: the first of the
  group's numbers, then whatever `pick` makes of it and the next.
-/

namespace Grouped

section group

variable {α K : Type*} [LinearOrder K] (key : α → K)

/-- The keys in use. -/
def keys (l : List α) : List K := (l.map key).dedup.insertionSort (· ≤ ·)

/-- The elements of each key. -/
def group (l : List α) : List (K × List α) :=
  (keys key l).map fun k => (k, l.filter fun a => key a = k)

variable {key} {l : List α} {k : K}

theorem mem_keys : k ∈ keys key l ↔ ∃ a ∈ l, key a = k := by
  simp [keys]

theorem keys_ascending (l : List α) : (keys key l).Pairwise (· < ·) := by
  have hsorted : (keys key l).Pairwise (· ≤ ·) := List.pairwise_insertionSort (· ≤ ·) _
  have hnodup : (keys key l).Nodup :=
    (List.perm_insertionSort (· ≤ ·) _).nodup_iff.mpr (List.nodup_dedup _)
  exact hsorted.imp₂ (fun _ _ hle hne => lt_of_le_of_ne hle hne) hnodup

theorem group_keys (l : List α) : (group key l).map Prod.fst = keys key l := by
  simp [group, Function.comp_def]

theorem mem_group {g : K × List α} (h : g ∈ group key l) :
    g.1 ∈ keys key l ∧ g.2 = l.filter fun a => key a = g.1 := by
  obtain ⟨k, hk, rfl⟩ := List.mem_map.mp h
  exact ⟨hk, rfl⟩

theorem group_ne_nil {g : K × List α} (h : g ∈ group key l) : g.2 ≠ [] := by
  obtain ⟨hk, heq⟩ := mem_group h
  obtain ⟨a, ha, hkey⟩ := mem_keys.mp hk
  rw [heq]
  exact List.ne_nil_of_mem (List.mem_filter.mpr ⟨ha, decide_eq_true hkey⟩)

theorem sum_group {M : Type*} [AddCommMonoid M] (key : α → K) (f : α → M) (l : List α) :
    ((group key l).map fun g => (g.2.map f).sum).sum = (l.map f).sum := by
  have hsplit : ∀ (l : List α) (ks : List K), ks.Nodup → (∀ a ∈ l, key a ∈ ks) →
      (ks.map fun k => ((l.filter fun a => key a = k).map f).sum).sum = (l.map f).sum := by
    intro l ks hnodup
    induction l with
    | nil => simp
    | cons a l ih =>
      intro hmem
      have hcons : ∀ k, (((a :: l).filter fun a => key a = k).map f).sum =
          (if k = key a then f a else 0) + ((l.filter fun a => key a = k).map f).sum := by
        intro k
        by_cases hk : key a = k
        · simp [hk]
        · simp [hk, Ne.symm hk]
      simp only [hcons]
      rw [List.sum_map_add, ih fun b hb => hmem b (List.mem_cons_of_mem _ hb), List.map_cons,
        List.sum_cons, ← List.sum_toFinset _ hnodup, Finset.sum_ite_eq',
        if_pos (List.mem_toFinset.mpr (hmem a List.mem_cons_self))]
  rw [group, List.map_map]
  refine hsplit l (keys key l) ((keys_ascending l).imp fun hlt => hlt.ne) fun a ha => ?_
  exact mem_keys.mpr ⟨a, ha, rfl⟩

end group

/-! ## One number for each key -/

/-- The first number, then what `pick` makes of it and the next. -/
def reduce (pick : Nat → Nat → Nat) : List Nat → Nat
  | [] => 0
  | first :: rest => rest.foldl pick first

/-- A number of the list, where `pick` picks one of two. -/
theorem reduce_mem {pick : Nat → Nat → Nat} (hpick : ∀ a b, pick a b = a ∨ pick a b = b)
    {l : List Nat} (h : l ≠ []) : reduce pick l ∈ l := by
  cases l with
  | nil => exact absurd rfl h
  | cons first rest =>
    have hfold : ∀ (rest : List Nat) (a : Nat), rest.foldl pick a ∈ a :: rest := by
      intro rest
      induction rest with
      | nil => exact fun a => List.mem_singleton_self a
      | cons b rest ih =>
        intro a
        rw [List.foldl_cons]
        rcases hpick a b with hab | hab
        · rw [hab]
          rcases List.mem_cons.mp (ih a) with hmem | hmem
          · rw [hmem]
            exact List.mem_cons_self
          · exact List.mem_cons_of_mem _ (List.mem_cons_of_mem _ hmem)
        · rw [hab]
          exact List.mem_cons_of_mem _ (ih b)
    exact hfold rest first

theorem min_picks (a b : Nat) : min a b = a ∨ min a b = b := min_choice a b

theorem max_picks (a b : Nat) : max a b = a ∨ max a b = b := max_choice a b

section reduced

variable {α K : Type*} [LinearOrder K] (key : α → K) (value : α → Nat)

/-- The groups' numbers. -/
def reduced (pick : Nat → Nat → Nat) (l : List α) : List (K × Nat) :=
  (group key l).map fun g => (g.1, reduce pick (g.2.map value))

variable {key value} {pick : Nat → Nat → Nat} {l : List α}

theorem reduced_keys (l : List α) : (reduced key value pick l).map Prod.fst = keys key l := by
  rw [← group_keys, reduced, List.map_map]
  rfl

theorem mem_reduced (hpick : ∀ a b, pick a b = a ∨ pick a b = b) {e : K × Nat}
    (h : e ∈ reduced key value pick l) : ∃ a ∈ l, key a = e.1 ∧ value a = e.2 := by
  obtain ⟨g, hg, rfl⟩ := List.mem_map.mp h
  have hne : g.2.map value ≠ [] := fun hnil => group_ne_nil hg (List.map_eq_nil_iff.mp hnil)
  obtain ⟨a, ha, hvalue⟩ := List.mem_map.mp (reduce_mem hpick hne)
  rw [(mem_group hg).2] at ha
  obtain ⟨hmem, hkey⟩ := List.mem_filter.mp ha
  exact ⟨a, hmem, of_decide_eq_true hkey, hvalue⟩

end reduced

/-! ## The largest value -/

section largest

variable {K : Type*}

/-- Keep the best entry so far, unless the next one is larger. -/
def larger (best : Option (K × Nat)) (e : K × Nat) : Option (K × Nat) :=
  match best with
  | none => some e
  | some current => if e.2 > current.2 then some e else some current

/-- The first key of the largest value. -/
def firstMax (values : List (K × Nat)) : Option K := (values.foldl larger none).map Prod.fst

/-- An entry with nothing as large before it and nothing larger behind it. -/
structure Largest (values : List (K × Nat)) (best : K × Nat) (before after : List (K × Nat)) :
    Prop where
  eq : values = before ++ best :: after
  before : ∀ e ∈ before, e.2 < best.2
  after : ∀ e ∈ after, e.2 ≤ best.2

theorem foldl_larger (values : List (K × Nat)) : values = [] ∧ values.foldl larger none = none ∨
      ∃ best before after, values.foldl larger none = some best ∧
        Largest values best before after := by
  induction values using List.reverseRecOn with
  | nil => exact .inl ⟨rfl, rfl⟩
  | append_singleton values e ih =>
    refine .inr ?_
    rw [List.foldl_append, List.foldl_cons, List.foldl_nil]
    rcases ih with ⟨rfl, hnone⟩ | ⟨best, before, after, hbest, heq, hbefore, hafter⟩
    · rw [hnone]
      exact ⟨e, [], [], rfl, rfl, fun _ hmem => (List.not_mem_nil hmem).elim,
        fun _ hmem => (List.not_mem_nil hmem).elim⟩
    · rw [hbest, larger]
      split
      · next hlarger =>
        -- the best so far and all before it are smaller
        refine ⟨e, values, [], rfl, rfl, fun other hmem => ?_,
          fun _ hmem => (List.not_mem_nil hmem).elim⟩
        rw [heq, List.mem_append, List.mem_cons] at hmem
        rcases hmem with hmem | rfl | hmem
        · exact (hbefore other hmem).trans hlarger
        · exact hlarger
        · exact (hafter other hmem).trans_lt hlarger
      · next hnot =>
        refine ⟨best, before, after ++ [e], rfl, by rw [heq, List.append_assoc]; rfl, hbefore,
          fun other hmem => ?_⟩
        rcases List.mem_append.mp hmem with hmem | hmem
        · exact hafter other hmem
        · rw [List.mem_singleton.mp hmem]
          exact Nat.le_of_not_lt hnot

theorem firstMax_spec {values : List (K × Nat)} {k : K} (h : firstMax values = some k) :
    ∃ value before after, Largest values (k, value) before after := by
  rcases foldl_larger values with ⟨-, hnone⟩ | ⟨best, before, after, hbest, hlargest⟩
  · rw [firstMax, hnone] at h
    cases h
  · rw [firstMax, hbest] at h
    obtain rfl := Option.some.inj h
    exact ⟨best.2, before, after, hlargest⟩

theorem firstMax_isSome {values : List (K × Nat)} (h : values ≠ []) : (firstMax values).isSome := by
  rcases foldl_larger values with ⟨hnil, -⟩ | ⟨best, -, -, hbest, -⟩
  · exact absurd hnil h
  · rw [firstMax, hbest]
    rfl

end largest

end Grouped
