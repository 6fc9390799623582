import Mathlib.Data.List.Dedup
import Mathlib.Data.List.Perm.Subperm
import Mathlib.Tactic.ByContra

/-
  The union of two keyed row lists.

  A table holds one row a key. Two tables are united by keeping the rows of the first and adding
  the rows of the second whose key the first lacks; rows of one key agree or are in conflict.
-/

namespace KeyedUnion

variable {R K C : Type*} [DecidableEq K]

/-- The rows of `xs`, and those of `ys` whose key is not among them. -/
def union (key : R → K) (xs ys : List R) : List R :=
  xs ++ ys.filter fun y => key y ∉ xs.map key

/-- One row taken in. -/
def absorb (key : R → K) (rows : List R) (row : R) : List R :=
  if key row ∈ rows.map key then rows else rows ++ [row]

/-- No row of `xs` is under the key of `row`. -/
def Fresh (key : R → K) (xs : List R) (row : R) : Prop := key row ∉ xs.map key

instance (key : R → K) (xs : List R) (row : R) : Decidable (Fresh key xs row) :=
  inferInstanceAs (Decidable (key row ∉ xs.map key))

/-- A row of `xs` under the key of `row` that `same` holds of. -/
def Meets (key : R → K) (same : R → R → Prop) (xs : List R) (row : R) : Prop :=
  ∃ x ∈ xs, key x = key row ∧ same x row

instance (key : R → K) (same : R → R → Prop) [DecidableRel same] (xs : List R) (row : R) :
    Decidable (Meets key same xs row) :=
  inferInstanceAs (Decidable (∃ x ∈ xs, key x = key row ∧ same x row))

/-- Rows of one key have one content. -/
def Consistent (key : R → K) (content : R → C) (xs ys : List R) : Prop :=
  ∀ x ∈ xs, ∀ y ∈ ys, key x = key y → content x = content y

variable {key : R → K} {content : R → C} {xs ys : List R}

omit [DecidableEq K] in
/-! ## The rows of the union -/

@[simp] theorem union_nil_left : union key [] ys = ys := by
  simp [union]

@[simp] theorem union_nil_right : union key xs [] = xs := by
  simp [union]

theorem mem_union {z : R} : z ∈ union key xs ys ↔ z ∈ xs ∨ (z ∈ ys ∧ key z ∉ xs.map key) := by
  simp [union]

theorem mem_keys_union {k : K} :
    k ∈ (union key xs ys).map key ↔ k ∈ xs.map key ∨ k ∈ ys.map key := by
  constructor
  · intro h
    obtain ⟨z, hz, rfl⟩ := List.mem_map.mp h
    exact (mem_union.mp hz).imp List.mem_map_of_mem fun h => List.mem_map_of_mem h.1
  · rintro (h | h)
    · obtain ⟨x, hx, rfl⟩ := List.mem_map.mp h
      exact List.mem_map_of_mem (mem_union.mpr (.inl hx))
    · obtain ⟨y, hy, rfl⟩ := List.mem_map.mp h
      by_cases hmem : key y ∈ xs.map key
      · obtain ⟨x, hx, hkey⟩ := List.mem_map.mp hmem
        exact hkey ▸ List.mem_map_of_mem (mem_union.mpr (.inl hx))
      · exact List.mem_map_of_mem (mem_union.mpr (.inr ⟨hy, hmem⟩))

theorem nodup_union (hx : (xs.map key).Nodup) (hy : (ys.map key).Nodup) :
    ((union key xs ys).map key).Nodup := by
  rw [union, List.map_append]
  refine List.nodup_append.mpr ⟨hx, hy.sublist (List.filter_sublist.map key), ?_⟩
  intro k hk l hl heq
  obtain ⟨y, hmem, rfl⟩ := List.mem_map.mp hl
  exact of_decide_eq_true (List.mem_filter.mp hmem).2 (heq ▸ hk)

theorem mem_union_content (h : Consistent key content xs ys) (c : C) :
    (∃ z ∈ union key xs ys, content z = c) ↔
      (∃ x ∈ xs, content x = c) ∨ ∃ y ∈ ys, content y = c := by
  constructor
  · rintro ⟨z, hz, rfl⟩
    exact (mem_union.mp hz).imp (fun h => ⟨z, h, rfl⟩) fun h => ⟨z, h.1, rfl⟩
  · rintro (⟨x, hx, rfl⟩ | ⟨y, hy, rfl⟩)
    · exact ⟨x, mem_union.mpr (.inl hx), rfl⟩
    · by_cases hmem : key y ∈ xs.map key
      · obtain ⟨x, hx, hkey⟩ := List.mem_map.mp hmem
        exact ⟨x, mem_union.mpr (.inl hx), h x hx y hy hkey⟩
      · exact ⟨y, mem_union.mpr (.inr ⟨hy, hmem⟩), rfl⟩

omit [DecidableEq K] in
/-- Two rows of one key are one row. -/
theorem eq_of_key (h : (xs.map key).Nodup) {x y : R} (hx : x ∈ xs) (hy : y ∈ xs)
    (hkey : key x = key y) : x = y :=
  List.inj_on_of_nodup_map h hx hy hkey

omit [DecidableEq K] in
/-- The row under a key is the one that a row of that key meets. -/
theorem meets_iff (h : (xs.map key).Nodup) {same : R → R → Prop} {x row : R} (hx : x ∈ xs)
    (hkey : key x = key row) : Meets key same xs row ↔ same x row :=
  ⟨fun ⟨_, hz, hzkey, hsame⟩ => eq_of_key h hz hx (hzkey.trans hkey.symm) ▸ hsame,
    fun hsame => ⟨x, hx, hkey, hsame⟩⟩

omit [DecidableEq K] in
theorem not_meets {same : R → R → Prop} {row : R} (h : key row ∉ xs.map key) :
    ¬Meets key same xs row :=
  fun ⟨_, hx, hkey, _⟩ => h (hkey ▸ List.mem_map_of_mem hx)

/-! ## Taking the rows in one by one -/

theorem meets_union {same : R → R → Prop} {row : R} (hnew : key row ∉ ys.map key) :
    Meets key same (union key xs ys) row ↔ Meets key same xs row := by
  constructor
  · rintro ⟨z, hz, hkey, hsame⟩
    rcases mem_union.mp hz with hx | ⟨hy, _⟩
    · exact ⟨z, hx, hkey, hsame⟩
    · exact absurd (hkey ▸ List.mem_map_of_mem hy) hnew
  · rintro ⟨x, hx, hkey, hsame⟩
    exact ⟨x, mem_union.mpr (.inl hx), hkey, hsame⟩

theorem absorb_union {row : R} (hnew : key row ∉ ys.map key) :
    absorb key (union key xs ys) row = union key xs (ys ++ [row]) := by
  have hmet : key row ∈ (union key xs ys).map key ↔ key row ∈ xs.map key :=
    mem_keys_union.trans (or_iff_left hnew)
  by_cases hmem : key row ∈ xs.map key
  · rw [absorb, if_pos (hmet.mpr hmem), union, union, List.filter_append,
      List.filter_cons_of_neg (by simpa using hmem), List.filter_nil, List.append_nil]
  · rw [absorb, if_neg (mt hmet.mp hmem), union, union, List.filter_append,
      List.filter_cons_of_pos (by simpa using hmem), List.filter_nil, List.append_assoc]

/-! ## Counting -/

theorem tally_total (hx : (xs.map key).Nodup) (same : R → R → Prop) [DecidableRel same]
    (ys : List R) :
    ys.countP (fun y => Fresh key xs y) + ys.countP (fun y => Meets key same xs y) +
      ys.countP (fun y => Meets key (fun x y => ¬same x y) xs y) = ys.length := by
  induction ys with
  | nil => rfl
  | cons y ys ih =>
    rw [List.countP_cons, List.countP_cons, List.countP_cons, List.length_cons, ← ih]
    by_cases hmem : key y ∈ xs.map key
    · obtain ⟨x, hxs, hkey⟩ := List.mem_map.mp hmem
      by_cases hsame : same x y
      · simp [Fresh, hmem, meets_iff hx hxs hkey, hsame]
        omega
      · simp [Fresh, hmem, meets_iff hx hxs hkey, hsame]
        omega
    · simp [Fresh, hmem, not_meets hmem]
      omega

theorem met_comm (hx : (xs.map key).Nodup) (hy : (ys.map key).Nodup) (same : R → R → Prop)
    [DecidableRel same] :
    ys.countP (fun y => Meets key same xs y) =
      xs.countP (fun x => Meets key (fun y x => same x y) ys x) := by
  have hperm : ((ys.filter fun y => Meets key same xs y).map key).Perm
      ((xs.filter fun x => Meets key (fun y x => same x y) ys x).map key) := by
    refine (List.perm_ext_iff_of_nodup (hy.sublist (List.filter_sublist.map key))
      (hx.sublist (List.filter_sublist.map key))).mpr fun k => ?_
    constructor
    · intro hk
      obtain ⟨y, hmem, rfl⟩ := List.mem_map.mp hk
      obtain ⟨hys, hmeets⟩ := List.mem_filter.mp hmem
      obtain ⟨x, hxs, hkey, hsame⟩ := of_decide_eq_true hmeets
      exact hkey ▸ List.mem_map_of_mem
        (List.mem_filter.mpr ⟨hxs, decide_eq_true ⟨y, hys, hkey.symm, hsame⟩⟩)
    · intro hk
      obtain ⟨x, hmem, rfl⟩ := List.mem_map.mp hk
      obtain ⟨hxs, hmeets⟩ := List.mem_filter.mp hmem
      obtain ⟨y, hys, hkey, hsame⟩ := of_decide_eq_true hmeets
      exact hkey ▸ List.mem_map_of_mem
        (List.mem_filter.mpr ⟨hys, decide_eq_true ⟨x, hxs, hkey.symm, hsame⟩⟩)
  have hlength := hperm.length_eq
  rwa [List.length_map, List.length_map, ← List.countP_eq_length_filter,
    ← List.countP_eq_length_filter] at hlength

end KeyedUnion
