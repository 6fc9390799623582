import Mathlib.Data.List.AList
import Mathlib.Tactic

/-
  Running totals over a keyed table.

  A program that keeps a map and, beside it, the sum of some weight over the
  map's entries has to move the sum with every insert and remove. The lemmas
  here say by how much: a total is a sum over the table's entries, and one
  equation per table operation relates the total before and after.
-/

namespace KeyedTotal

variable {K V : Type*} [DecidableEq K]

/-- A finite map with one value type. -/
abbrev Table (K V : Type*) := AList (fun _ : K => V)

/-- The weight of one key's entry, zero when the key has none. -/
def weightAt (w : K → V → Nat) (k : K) (m : Table K V) : Nat :=
  match m.lookup k with
  | some v => w k v
  | none => 0

omit [DecidableEq K] in
/-- The sum of the weights of all entries. -/
def total (w : K → V → Nat) (m : Table K V) : Nat :=
  (m.entries.map fun e => w e.1 e.2).sum

omit [DecidableEq K] in
@[simp] theorem total_empty (w : K → V → Nat) : total w (∅ : Table K V) = 0 := rfl

variable {w : K → V → Nat}

theorem weightAt_of_lookup {k : K} {m : Table K V} {v : V}
    (h : m.lookup k = some v) : weightAt w k m = w k v := by
  simp [weightAt, h]

theorem weightAt_of_notMem {k : K} {m : Table K V}
    (h : k ∉ m) : weightAt w k m = 0 := by
  simp [weightAt, AList.lookup_eq_none.mpr h]

theorem erase_of_notMem {k : K} {m : Table K V} (h : k ∉ m) : m.erase k = m :=
  AList.ext (List.kerase_of_notMem_keys h)

theorem total_erase (w : K → V → Nat) (k : K) (m : Table K V) :
    total w (m.erase k) + weightAt w k m = total w m := by
  by_cases h : k ∈ m
  · obtain ⟨v, l₁, l₂, hk, he, hr⟩ := List.exists_of_kerase (AList.mem_keys.mp h)
    have hv : m.lookup k = some v := by
      rw [← Option.mem_def, AList.mem_lookup_iff, he]; simp
    rw [weightAt_of_lookup hv]
    have hr' : (m.erase k).entries = l₁ ++ l₂ := hr
    simp only [total, hr', he, List.map_append, List.map_cons, List.sum_append, List.sum_cons]
    omega
  · rw [erase_of_notMem h, weightAt_of_notMem h, Nat.add_zero]

theorem total_insert_erase (w : K → V → Nat) (k : K) (v : V) (m : Table K V) :
    total w (m.insert k v) = w k v + total w (m.erase k) := by
  have herase : (m.erase k).entries = m.entries.kerase k := rfl
  simp only [total, AList.entries_insert, herase, List.map_cons, List.sum_cons]

theorem total_insert (w : K → V → Nat) (k : K) (v : V) (m : Table K V) :
    total w (m.insert k v) + weightAt w k m = w k v + total w m := by
  rw [total_insert_erase, Nat.add_assoc, total_erase]

theorem total_insert_of_notMem (w : K → V → Nat) {k : K} (v : V) {m : Table K V} (h : k ∉ m) :
    total w (m.insert k v) = w k v + total w m := by
  rw [total_insert_erase, erase_of_notMem h]

theorem total_erase_of_lookup (w : K → V → Nat) {k : K} {m : Table K V} {v : V}
    (h : m.lookup k = some v) : total w (m.erase k) + w k v = total w m := by
  rw [← total_erase w k m, weightAt_of_lookup h]

theorem weight_le_total (w : K → V → Nat) (k : K) (m : Table K V) : weightAt w k m ≤ total w m := by
  have h := total_erase w k m
  omega

theorem total_le_total {w w' : K → V → Nat} {m : Table K V}
    (h : ∀ k v, m.lookup k = some v → w k v ≤ w' k v) : total w m ≤ total w' m := by
  refine List.sum_le_sum fun e he => h e.1 e.2 ?_
  rw [← Option.mem_def, AList.mem_lookup_iff]
  exact he

theorem total_congr {w w' : K → V → Nat} {m : Table K V}
    (h : ∀ k v, m.lookup k = some v → w k v = w' k v) : total w m = total w' m :=
  Nat.le_antisymm (total_le_total fun k v hk => Nat.le_of_eq (h k v hk))
    (total_le_total fun k v hk => Nat.le_of_eq (h k v hk).symm)

theorem total_eq_zero {m : Table K V}
    (h : ∀ k v, m.lookup k = some v → w k v = 0) : total w m = 0 := by
  have h₀ : total w m = total (fun _ _ => 0) m := total_congr h
  rw [h₀]
  simp [total]

omit [DecidableEq K] in
theorem eq_empty_of_forall_notMem {m : Table K V} (h : ∀ k, k ∉ m) : m = ∅ := by
  apply AList.ext
  rw [AList.empty_entries, List.eq_nil_iff_forall_not_mem]
  intro e he
  exact h e.1 (AList.mem_keys.mpr (List.mem_keys_of_mem he))

/-! ## Comparing two tables -/

theorem sum_weightAt_le_total (w : K → V → Nat) {keys : List K} (hkeys : keys.Nodup)
    (m : Table K V) : (keys.map fun k => weightAt w k m).sum ≤ total w m := by
  induction keys generalizing m with
  | nil => exact Nat.zero_le _
  | cons k keys ih =>
    obtain ⟨hk, hkeys⟩ := List.nodup_cons.mp hkeys
    have herase : ∀ k' ∈ keys, weightAt w k' m = weightAt w k' (m.erase k) := by
      intro k' hk'
      have hne : k' ≠ k := fun h => hk (h ▸ hk')
      simp only [weightAt, AList.lookup_erase_ne hne]
    rw [List.map_cons, List.sum_cons, List.map_congr_left herase, ← total_erase w k m]
    have := ih hkeys (m.erase k)
    omega

theorem total_le_total_of_weightAt {V' : Type*} {w' : K → V' → Nat}
    {m' : Table K V'} {m : Table K V}
    (h : ∀ k v, m'.lookup k = some v → w' k v ≤ weightAt w k m) : total w' m' ≤ total w m := by
  have hle : total w' m' ≤ (m'.keys.map fun k => weightAt w k m).sum := by
    simp only [total, AList.keys, List.keys, List.map_map]
    refine List.sum_le_sum fun e he => h e.1 e.2 ?_
    rw [← Option.mem_def, AList.mem_lookup_iff]
    exact he
  exact hle.trans (sum_weightAt_le_total w m'.keys_nodup m)

theorem total_le_except {V' : Type*} {w' : K → V' → Nat}
    {m' : Table K V'} {m : Table K V} (k₀ : K)
    (h : ∀ k v, k ≠ k₀ → m'.lookup k = some v → w' k v ≤ weightAt w k m) :
    total w' m' + weightAt w k₀ m ≤ total w m + weightAt w' k₀ m' := by
  have hrest : total w' (m'.erase k₀) ≤ total w (m.erase k₀) := by
    refine total_le_total_of_weightAt fun k v hk => ?_
    have hne : k ≠ k₀ := by
      rintro rfl
      rw [AList.lookup_erase] at hk
      cases hk
    rw [AList.lookup_erase_ne hne] at hk
    have hw : weightAt w k (m.erase k₀) = weightAt w k m := by
      simp only [weightAt, AList.lookup_erase_ne hne]
    rw [hw]
    exact h k v hne hk
  have h₁ := total_erase w' k₀ m'
  have h₂ := total_erase w k₀ m
  omega

omit [DecidableEq K] in
theorem total_add (w w' : K → V → Nat) (m : Table K V) :
    total (fun k v => w k v + w' k v) m = total w m + total w' m := by
  simp [total, List.sum_map_add]

end KeyedTotal
