import Mathlib.Algebra.BigOperators.Group.Finset.Basic
import Mathlib.Algebra.BigOperators.Group.List.Basic
import Mathlib.Data.List.Dedup

/-
  Association lists read by key.

  A map that a program fills entry by entry is a list of pairs here; `List.lookup` reads it.
-/

namespace Dictionary

section lookup

variable {K V W : Type*} [BEq K] [LawfulBEq K]

variable {dict : List (K × V)}

theorem mem_keys_iff {key : K} :
    key ∈ dict.map Prod.fst ↔ ∃ value, dict.lookup key = some value := by
  induction dict with
  | nil => simp
  | cons entry dict ih =>
    rw [List.map_cons, List.mem_cons, List.lookup_cons, ih]
    cases hmatch : key == entry.1 with
    | true => exact ⟨fun _ => ⟨entry.2, rfl⟩, fun _ => .inl (eq_of_beq hmatch)⟩
    | false =>
      have hne : key ≠ entry.1 := fun heq => by
        rw [heq, beq_self_eq_true] at hmatch
        cases hmatch
      exact ⟨fun h => h.resolve_left hne, .inr⟩

theorem lookup_eq_none {key : K} (h : key ∉ dict.map Prod.fst) :
    dict.lookup key = none := by
  cases hlookup : dict.lookup key with
  | none => rfl
  | some value => exact absurd (mem_keys_iff.mpr ⟨value, hlookup⟩) h

theorem mem_of_lookup {key : K} {value : V}
    (h : dict.lookup key = some value) : (key, value) ∈ dict := by
  induction dict with
  | nil => cases h
  | cons entry dict ih =>
    rw [List.lookup_cons] at h
    cases hmatch : key == entry.1 with
    | true =>
      rw [hmatch] at h
      obtain rfl := Option.some.inj h
      rw [eq_of_beq hmatch]
      exact List.mem_cons_self
    | false =>
      rw [hmatch] at h
      exact List.mem_cons_of_mem _ (ih h)

theorem lookup_of_mem (hkeys : (dict.map Prod.fst).Nodup) {entry : K × V}
    (h : entry ∈ dict) : dict.lookup entry.1 = some entry.2 := by
  induction dict with
  | nil => cases h
  | cons first dict ih =>
    obtain ⟨hfirst, hrest⟩ := List.nodup_cons.mp hkeys
    rw [List.lookup_cons]
    rcases List.mem_cons.mp h with rfl | hmem
    · rw [beq_self_eq_true]
    · have hne : (entry.1 == first.1) = false := beq_eq_false_iff_ne.mpr fun heq =>
        hfirst (heq ▸ List.mem_map_of_mem hmem)
      rw [hne]
      exact ih hrest hmem

theorem lookup_forall₂ {Q : K × V → K × W → Prop} (hkeys : ∀ l r, Q l r → r.1 = l.1)
    {left : List (K × V)} {right : List (K × W)} (h : List.Forall₂ Q left right) (key : K) :
    (left.lookup key = none ∧ right.lookup key = none) ∨
      ∃ l r, Q l r ∧ l ∈ left ∧ l.1 = key ∧ left.lookup key = some l.2 ∧
        right.lookup key = some r.2 := by
  induction h with
  | nil => exact .inl ⟨rfl, rfl⟩
  | @cons l r ls rs hhead _ ih =>
    rw [List.lookup_cons, List.lookup_cons, hkeys l r hhead]
    cases hmatch : key == l.1 with
    | true =>
      exact .inr ⟨l, r, hhead, List.mem_cons_self, (eq_of_beq hmatch).symm, rfl, rfl⟩
    | false =>
      rcases ih with hnone | ⟨l', r', hQ, hmem, hkey, hlookup⟩
      · exact .inl hnone
      · exact .inr ⟨l', r', hQ, List.mem_cons_of_mem _ hmem, hkey, hlookup⟩

omit [LawfulBEq K] in
theorem lookup_map_value (dict : List (K × V)) (f : V → W) (key : K) :
    (dict.map fun entry => (entry.1, f entry.2)).lookup key = (dict.lookup key).map f := by
  induction dict with
  | nil => rfl
  | cons entry dict ih =>
    rw [List.map_cons, List.lookup_cons, List.lookup_cons, ih]
    cases key == entry.1 with
    | true => rfl
    | false => rfl

end lookup

theorem lookup_filter_self {K V : Type*} [DecidableEq K] (dict : List (K × V)) (key : K) :
    (dict.filter fun entry => entry.1 ≠ key).lookup key = none := by
  refine lookup_eq_none fun h => ?_
  obtain ⟨entry, hentry, rfl⟩ := List.mem_map.mp h
  exact of_decide_eq_true (List.mem_filter.mp hentry).2 rfl

theorem lookup_filter_ne {K V : Type*} [DecidableEq K] (dict : List (K × V)) {key other : K}
    (h : other ≠ key) :
    (dict.filter fun entry => entry.1 ≠ key).lookup other = dict.lookup other := by
  induction dict with
  | nil => rfl
  | cons entry dict ih =>
    rw [List.lookup_cons]
    by_cases hentry : entry.1 = key
    · have hne : (other == entry.1) = false := beq_eq_false_iff_ne.mpr (hentry ▸ h)
      rw [List.filter_cons_of_neg (by simpa using hentry), ih, hne]
    · rw [List.filter_cons_of_pos (by simpa using hentry), List.lookup_cons, ih]

theorem sum_superset {K M : Type*} [DecidableEq K] [AddCommMonoid M] {all some : List K}
    (hall : all.Nodup) (hsome : some.Nodup) (hsub : ∀ key ∈ some, key ∈ all) {f : K → M}
    (hzero : ∀ key ∈ all, key ∉ some → f key = 0) : (all.map f).sum = (some.map f).sum := by
  rw [← List.sum_toFinset f hall, ← List.sum_toFinset f hsome]
  refine (Finset.sum_subset (fun key hkey => ?_) fun key hkey hnot => ?_).symm
  · exact List.mem_toFinset.mpr (hsub key (List.mem_toFinset.mp hkey))
  · exact hzero key (List.mem_toFinset.mp hkey) fun h => hnot (List.mem_toFinset.mpr h)

end Dictionary
