import Mathlib.Tactic
import Mathlib.Data.List.Nodup

/-
  Items in custody.

  A system moves items between containers. Where each item is is one function from
  items to places; a container is right when its list names the items at its places,
  each once (`Lists`). An operation moves one item, or a whole group of them; what it
  does to a container's list follows from whether the item enters the container, leaves
  it or stays outside it.
-/

namespace Custody

variable {ι σ : Type}

/-- The list names exactly the items with a property, each once. -/
structure Lists (l : List ι) (P : ι → Prop) : Prop where
  nodup : l.Nodup
  mem_iff : ∀ i, i ∈ l ↔ P i

namespace Lists

variable {l l' : List ι} {P Q : ι → Prop} {i : ι}

theorem congr (h : Lists l P) (hPQ : ∀ i, P i ↔ Q i) : Lists l Q :=
  ⟨h.nodup, fun i => (h.mem_iff i).trans (hPQ i)⟩

theorem perm (h : Lists l P) (hl : l'.Perm l) : Lists l' P :=
  ⟨hl.nodup_iff.mpr h.nodup, fun i => hl.mem_iff.trans (h.mem_iff i)⟩

theorem nil (h : ∀ i, ¬ P i) : Lists [] P :=
  ⟨List.nodup_nil, fun i => ⟨fun hi => absurd hi List.not_mem_nil, fun hi => absurd hi (h i)⟩⟩

theorem eq_nil_iff (h : Lists l P) : l = [] ↔ ∀ i, ¬ P i := by
  rw [List.eq_nil_iff_forall_not_mem]
  exact forall_congr' fun i => not_congr (h.mem_iff i)

theorem cons (h : Lists l P) (hi : ¬ P i) : Lists (i :: l) fun j => j = i ∨ P j where
  nodup := List.nodup_cons.mpr ⟨fun hm => hi ((h.mem_iff i).mp hm), h.nodup⟩
  mem_iff := fun j => by rw [List.mem_cons, h.mem_iff]

theorem tail (h : Lists (i :: l) P) : Lists l fun j => P j ∧ j ≠ i where
  nodup := (List.nodup_cons.mp h.nodup).2
  mem_iff := fun j => by
    have hi : i ∉ l := (List.nodup_cons.mp h.nodup).1
    rw [← h.mem_iff, List.mem_cons]
    constructor
    · intro hj
      exact ⟨.inr hj, fun heq => hi (heq ▸ hj)⟩
    · rintro ⟨rfl | hj, hne⟩
      · exact absurd rfl hne
      · exact hj

theorem head (h : Lists (i :: l) P) : P i := (h.mem_iff i).mp List.mem_cons_self

theorem append (h : Lists l P) (h' : Lists l' Q) (hdisjoint : ∀ i, P i → ¬ Q i) :
    Lists (l ++ l') fun i => P i ∨ Q i where
  nodup := List.nodup_append'.mpr ⟨h.nodup, h'.nodup, fun i hi hi' =>
    hdisjoint i ((h.mem_iff i).mp hi) ((h'.mem_iff i).mp hi')⟩
  mem_iff := fun i => by rw [List.mem_append, h.mem_iff, h'.mem_iff]

theorem filter (h : Lists l P) (p : ι → Bool) : Lists (l.filter p) fun i => P i ∧ p i where
  nodup := h.nodup.filter p
  mem_iff := fun i => by rw [List.mem_filter, h.mem_iff]

/-! ## Moves of one item -/

variable [DecidableEq ι] {place : ι → σ} {R : σ → Prop} {s : σ}

theorem enter (h : Lists l fun j => R (place j)) (hi : ¬ R (place i)) (hs : R s) :
    Lists (i :: l) fun j => R (Function.update place i s j) :=
  (h.cons hi).congr fun j => by
    by_cases hj : j = i
    · simp [hj, hs]
    · simp [hj]

theorem leave (h : Lists (i :: l) fun j => R (place j)) (hs : ¬ R s) :
    Lists l fun j => R (Function.update place i s j) :=
  h.tail.congr fun j => by
    by_cases hj : j = i
    · simp [hj, hs]
    · simp [hj]

theorem stay (h : Lists l fun j => R (place j)) (hs : R s ↔ R (place i)) :
    Lists l fun j => R (Function.update place i s j) :=
  h.congr fun j => by
    by_cases hj : j = i
    · simp [hj, hs]
    · simp [hj]

end Lists

end Custody
