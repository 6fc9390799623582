import Mathlib.Data.List.AList
import ServingSim.Lib.KeyedTotal

/-
  An insertion-ordered list of keyed values with a by-key index beside it.

  The list is the source of truth for order; the index answers "at which
  position is this key" without a scan. Keeping the two together is the whole
  difficulty: a removal shifts every later position, so the index entries of
  all survivors behind the removed slot are written again. A `SlotList` carries
  the proof that its index mirrors its list, so a value whose index points at
  the wrong slot cannot be built.
-/

namespace SlotList

open KeyedTotal

variable {K V : Type*} [DecidableEq K]

/-! ## Renumbering -/

/-- Write consecutive positions, from `n` on, for the keys of a list. -/
def renumber (n : Nat) : List K → Table K Nat → Table K Nat
  | [], index => index
  | k :: ks, index => renumber (n + 1) ks (index.insert k n)

theorem lookup_renumber {ks : List K} (n : Nat) (index : Table K Nat) (hks : ks.Nodup) (k : K) :
    (renumber n ks index).lookup k =
      if k ∈ ks then some (n + ks.idxOf k) else index.lookup k := by
  induction ks generalizing n index with
  | nil => simp [renumber]
  | cons a ks ih =>
    obtain ⟨ha, hks⟩ := List.nodup_cons.mp hks
    rw [renumber, ih (n + 1) (index.insert a n) hks]
    by_cases hk : k = a
    · subst hk
      simp [ha]
    · have hak : a ≠ k := fun h => hk h.symm
      by_cases hm : k ∈ ks
      · simp [hm, List.idxOf_cons_ne ks hak]; omega
      · simp [hm, hk, AList.lookup_insert_ne hk]

end SlotList

/-- An insertion-ordered list and the index that mirrors it. -/
structure SlotList (K V : Type*) [DecidableEq K] where
  slots : List (K × V)
  index : KeyedTotal.Table K Nat
  mirrors : ∀ k i, index.lookup k = some i ↔ (slots.map Prod.fst)[i]? = some k

namespace SlotList

open KeyedTotal

variable {K V : Type*} [DecidableEq K]

/-- The keys in insertion order. -/
def keys (l : SlotList K V) : List K := l.slots.map Prod.fst

theorem lookup_iff (l : SlotList K V) (k : K) (i : Nat) :
    l.index.lookup k = some i ↔ l.keys[i]? = some k := l.mirrors k i

theorem keys_nodup (l : SlotList K V) : l.keys.Nodup := by
  rw [List.nodup_iff_getElem?_ne_getElem?]
  intro i j hij hj heq
  have hk : l.keys[j]? = some l.keys[j] := List.getElem?_eq_getElem hj
  have h₁ := (l.lookup_iff _ i).mpr (heq.trans hk)
  have h₂ := (l.lookup_iff _ j).mpr hk
  have := h₁.symm.trans h₂
  simp only [Option.some.injEq] at this
  omega

theorem mem_index_iff (l : SlotList K V) (k : K) : k ∈ l.index ↔ k ∈ l.keys := by
  rw [← AList.lookup_isSome, Option.isSome_iff_exists, List.mem_iff_getElem?]
  exact exists_congr fun i => l.lookup_iff k i

theorem lookup_eq_none_iff (l : SlotList K V) (k : K) : l.index.lookup k = none ↔ k ∉ l.keys := by
  rw [AList.lookup_eq_none, mem_index_iff]

/-! ## Operations -/

/-- No slots. -/
def empty : SlotList K V where
  slots := []
  index := ∅
  mirrors := by simp

@[simp] theorem slots_empty : (empty : SlotList K V).slots = [] := rfl
@[simp] theorem keys_empty : (empty : SlotList K V).keys = [] := rfl

/-- The value under a key, read through the index. -/
def get? (l : SlotList K V) (k : K) : Option V :=
  match l.index.lookup k with
  | some i => l.slots[i]?.map Prod.snd
  | none => none

theorem get?_eq_some_iff (l : SlotList K V) (k : K) (v : V) :
    l.get? k = some v ↔ (k, v) ∈ l.slots := by
  constructor
  · intro h
    cases hi : l.index.lookup k with
    | none => simp [get?, hi] at h
    | some i =>
      simp only [get?, hi] at h
      obtain ⟨⟨k', v'⟩, hs, rfl⟩ := Option.map_eq_some_iff.mp h
      have hk := (l.mirrors k i).mp hi
      simp only [List.getElem?_map, hs, Option.map_some, Option.some.injEq] at hk
      subst hk
      exact List.mem_of_getElem? hs
  · intro h
    obtain ⟨i, hs⟩ := List.mem_iff_getElem?.mp h
    have hi : l.index.lookup k = some i := (l.mirrors k i).mpr (by simp [hs])
    simp [get?, hi, hs]

theorem get?_eq_none_iff (l : SlotList K V) (k : K) : l.get? k = none ↔ k ∉ l.keys := by
  constructor
  · intro h hk
    obtain ⟨⟨k', v⟩, hs, rfl⟩ := List.mem_map.mp hk
    rw [(l.get?_eq_some_iff k' v).mpr hs] at h
    cases h
  · intro h
    simp [get?, (l.lookup_eq_none_iff k).mpr h]

theorem get?_isSome_iff (l : SlotList K V) (k : K) : (l.get? k).isSome ↔ k ∈ l.keys := by
  rw [← Option.ne_none_iff_isSome, ne_eq, get?_eq_none_iff, not_not]

/-- Append a slot for a key that has none. -/
def push (l : SlotList K V) (k : K) (v : V) (h : k ∉ l.index) : SlotList K V where
  slots := l.slots ++ [(k, v)]
  index := l.index.insert k l.slots.length
  mirrors := by
    intro k' i
    have hk : k ∉ l.keys := fun hm => h ((l.mem_index_iff k).mpr hm)
    rw [List.map_append, List.map_cons, List.map_nil, List.getElem?_append]
    by_cases hkk : k' = k
    · subst hkk
      simp only [AList.lookup_insert, Option.some.injEq, List.length_map]
      split
      · constructor
        · omega
        · exact fun hi => absurd (List.mem_of_getElem? hi) hk
      · rw [List.getElem?_singleton]
        split <;> simp <;> omega
    · rw [AList.lookup_insert_ne hkk, l.mirrors, List.length_map]
      split
      · rfl
      · rename_i hi
        rw [List.getElem?_eq_none (by simpa using hi), List.getElem?_singleton]
        split
        · simp [Ne.symm hkk]
        · rfl

@[simp] theorem slots_push (l : SlotList K V) (k : K) (v : V) (h : k ∉ l.index) :
    (l.push k v h).slots = l.slots ++ [(k, v)] := rfl

variable {k : K}

theorem mirrors_eraseIdx (l : SlotList K V) {pos : Nat} (hpos : l.index.lookup k = some pos)
    (k' : K) (i : Nat) :
    (renumber pos ((l.keys.eraseIdx pos).drop pos) (l.index.erase k)).lookup k' = some i ↔
      (l.keys.eraseIdx pos)[i]? = some k' := by
  have hk : l.keys[pos]? = some k := (l.lookup_iff k pos).mp hpos
  have hnd := l.keys_nodup
  have hnd' : (l.keys.eraseIdx pos).Nodup := hnd.sublist (List.eraseIdx_sublist _ _)
  have hkn : k ∉ l.keys.eraseIdx pos := by
    intro hm
    obtain ⟨j, hj, hne⟩ := List.mem_eraseIdx_iff_getElem?.mp hm
    have h₁ := (l.lookup_iff k j).mpr hne
    rw [hpos] at h₁
    exact hj (Option.some.inj h₁).symm
  rw [lookup_renumber pos _ (hnd'.sublist (List.drop_sublist _ _))]
  by_cases hm : k' ∈ (l.keys.eraseIdx pos).drop pos
  · -- behind the removed slot: the key was written again at its new position
    simp only [hm, if_true, Option.some.injEq]
    have hget : (l.keys.eraseIdx pos)[pos + List.idxOf k' ((l.keys.eraseIdx pos).drop pos)]? =
        some k' := by
      rw [← List.getElem?_drop]
      exact List.getElem?_idxOf hm
    constructor
    · rintro rfl
      exact hget
    · intro hi
      have hlt := (List.getElem?_eq_some_iff.mp hget).1
      exact (List.getElem?_inj hlt hnd').mp (hget.trans hi.symm)
  · simp only [hm, if_false]
    by_cases hkk : k' = k
    · subst hkk
      simp only [AList.lookup_erase, reduceCtorEq, false_iff]
      exact fun hi => hkn (List.mem_of_getElem? hi)
    · rw [AList.lookup_erase_ne hkk, l.lookup_iff]
      constructor
      · intro hi
        have hne : i ≠ pos := by
          rintro rfl
          exact hkk (Option.some.inj (hi.symm.trans hk))
        rcases Nat.lt_or_gt_of_ne hne with hlt | hgt
        · rwa [List.getElem?_eraseIdx_of_lt hlt]
        · refine absurd (List.mem_of_getElem? (i := i - 1 - pos) ?_) hm
          rw [List.getElem?_drop, List.getElem?_eraseIdx_of_ge (by omega)]
          rwa [show pos + (i - 1 - pos) + 1 = i by omega]
      · intro hi
        have hlt : i < pos := by
          by_contra hge
          refine hm (List.mem_of_getElem? (i := i - pos) ?_)
          rwa [List.getElem?_drop, show pos + (i - pos) = i by omega]
        rwa [List.getElem?_eraseIdx_of_lt hlt] at hi

/-- Remove a key's slot, keeping the order of all others. -/
def remove (l : SlotList K V) (k : K) : SlotList K V :=
  match h : l.index.lookup k with
  | none => l
  | some pos =>
    { slots := l.slots.eraseIdx pos
      index := renumber pos ((l.keys.eraseIdx pos).drop pos) (l.index.erase k)
      mirrors := by
        intro k' i
        rw [l.mirrors_eraseIdx h, keys, List.eraseIdx_map] }

/-- Replace a key's value in place. -/
def modify (l : SlotList K V) (k : K) (f : V → V) : SlotList K V :=
  match l.index.lookup k with
  | none => l
  | some pos =>
    { l with
      slots := l.slots.modify pos fun e => (e.1, f e.2)
      mirrors := by
        intro k' i
        rw [l.mirrors]
        simp only [List.getElem?_map, List.getElem?_modify]
        cases l.slots[i]? with
        | none => simp
        | some e => simp only [Option.map_some]; split <;> rfl }

/-- Replace every value in place. -/
def mapValues (l : SlotList K V) (f : V → V) : SlotList K V :=
  { l with
    slots := l.slots.map fun e => (e.1, f e.2)
    mirrors := by
      intro k i
      rw [l.mirrors, List.map_map]
      rfl }

/-! ## What the operations do -/

variable {l : SlotList K V}

theorem remove_of_notMem (h : k ∉ l.keys) : l.remove k = l := by
  have hn := (l.lookup_eq_none_iff k).mpr h
  unfold remove
  split
  · rfl
  · rename_i pos hpos
    rw [hn] at hpos
    cases hpos

theorem slots_remove {pos : Nat} (h : l.index.lookup k = some pos) :
    (l.remove k).slots = l.slots.eraseIdx pos := by
  unfold remove
  split
  · rename_i hn
    rw [hn] at h
    cases h
  · rename_i pos' hpos
    rw [hpos] at h
    cases h
    rfl

theorem slots_modify {pos : Nat} (f : V → V)
    (h : l.index.lookup k = some pos) :
    (l.modify k f).slots = l.slots.modify pos fun e => (e.1, f e.2) := by
  simp only [modify, h]

theorem modify_of_notMem (f : V → V) (h : k ∉ l.keys) :
    l.modify k f = l := by
  simp only [modify, (l.lookup_eq_none_iff k).mpr h]

@[simp] theorem slots_mapValues (l : SlotList K V) (f : V → V) :
    (l.mapValues f).slots = l.slots.map fun e => (e.1, f e.2) := rfl

@[simp] theorem keys_mapValues (l : SlotList K V) (f : V → V) : (l.mapValues f).keys = l.keys := by
  simp [keys, Function.comp_def]

theorem split_at {v : V} (h : l.get? k = some v) :
    ∃ pos s t, l.index.lookup k = some pos ∧ l.slots = s ++ (k, v) :: t ∧ s.length = pos := by
  obtain ⟨i, hs⟩ := List.mem_iff_getElem?.mp ((l.get?_eq_some_iff k v).mp h)
  have hi : i < l.slots.length := (List.getElem?_eq_some_iff.mp hs).1
  refine ⟨i, l.slots.take i, l.slots.drop (i + 1), (l.mirrors k i).mpr (by simp [hs]), ?_, ?_⟩
  · rw [← (List.getElem?_eq_some_iff.mp hs).2, List.cons_getElem_drop_succ, List.take_append_drop]
  · simp [hi.le]

theorem remove_split {v : V} (h : l.get? k = some v) :
    ∃ s t, l.slots = s ++ (k, v) :: t ∧ (l.remove k).slots = s ++ t := by
  obtain ⟨pos, s, t, hpos, hl, rfl⟩ := split_at h
  refine ⟨s, t, hl, ?_⟩
  rw [slots_remove hpos, hl, List.eraseIdx_append_of_length_le (Nat.le_refl _)]
  simp

theorem modify_split {v : V} (f : V → V) (h : l.get? k = some v) :
    ∃ s t, l.slots = s ++ (k, v) :: t ∧ (l.modify k f).slots = s ++ (k, f v) :: t := by
  obtain ⟨pos, s, t, hpos, hl, rfl⟩ := split_at h
  refine ⟨s, t, hl, ?_⟩
  rw [slots_modify f hpos, hl, List.modify]
  exact List.modifyTailIdx_add (i := 0) _ s _

@[simp] theorem keys_modify (l : SlotList K V) (k : K) (f : V → V) :
    (l.modify k f).keys = l.keys := by
  cases h : l.get? k with
  | none => rw [modify_of_notMem f ((l.get?_eq_none_iff k).mp h)]
  | some v =>
    obtain ⟨s, t, hl, hm⟩ := modify_split f h
    simp [keys, hl, hm]

theorem mem_slots_remove_iff (l : SlotList K V) (k : K) (e : K × V) :
    e ∈ (l.remove k).slots ↔ e ∈ l.slots ∧ e.1 ≠ k := by
  cases h : l.get? k with
  | none =>
    have hk := (l.get?_eq_none_iff k).mp h
    rw [remove_of_notMem hk]
    refine ⟨fun he => ⟨he, ?_⟩, And.left⟩
    rintro rfl
    exact hk (List.mem_map_of_mem he)
  | some v =>
    obtain ⟨s, t, hl, hr⟩ := remove_split h
    have hnd := l.keys_nodup
    simp only [keys, hl, List.map_append, List.map_cons] at hnd
    have hks := (List.nodup_middle.mp hnd)
    rw [List.nodup_cons, List.mem_append, not_or] at hks
    rw [hr, hl]
    simp only [List.mem_append, List.mem_cons]
    constructor
    · rintro (he | he)
      · exact ⟨.inl he, fun heq => hks.1.1 (heq ▸ List.mem_map_of_mem he)⟩
      · exact ⟨.inr (.inr he), fun heq => hks.1.2 (heq ▸ List.mem_map_of_mem he)⟩
    · rintro ⟨he | rfl | he, hne⟩
      · exact .inl he
      · exact absurd rfl hne
      · exact .inr he

theorem mem_keys_remove_iff (l : SlotList K V) (k k' : K) :
    k' ∈ (l.remove k).keys ↔ k' ∈ l.keys ∧ k' ≠ k := by
  simp only [keys, List.mem_map, mem_slots_remove_iff]
  constructor
  · rintro ⟨e, ⟨he, hne⟩, rfl⟩
    exact ⟨⟨e, he, rfl⟩, hne⟩
  · rintro ⟨⟨e, he, rfl⟩, hne⟩
    exact ⟨e, ⟨he, hne⟩, rfl⟩

theorem get?_remove_ne {l : SlotList K V} {k k' : K} (h : k' ≠ k) :
    (l.remove k).get? k' = l.get? k' := by
  apply Option.ext
  intro v
  rw [get?_eq_some_iff, get?_eq_some_iff, mem_slots_remove_iff]
  exact ⟨And.left, fun hv => ⟨hv, h⟩⟩

theorem get?_push_ne {l : SlotList K V} {k k' : K} {v : V} {hk : k ∉ l.index} (h : k' ≠ k) :
    (l.push k v hk).get? k' = l.get? k' := by
  apply Option.ext
  intro v'
  simp only [get?_eq_some_iff, slots_push, List.mem_append, List.mem_singleton,
    Prod.mk.injEq, h, false_and, or_false]

theorem map_slots_of_notMem {u : List (K × V)} (f : V → V) (h : k ∉ u.map Prod.fst) :
    (u.map fun e => (e.1, if e.1 = k then f e.2 else e.2)) = u := by
  refine (List.map_congr_left fun e he => ?_).trans (List.map_id u)
  have hne : e.1 ≠ k := fun heq => h (heq ▸ List.mem_map_of_mem he)
  rw [if_neg hne]
  rfl

theorem slots_modify_eq_map (l : SlotList K V) (k : K) (f : V → V) :
    (l.modify k f).slots = l.slots.map fun e => (e.1, if e.1 = k then f e.2 else e.2) := by
  cases h : l.get? k with
  | none =>
    have hk := (l.get?_eq_none_iff k).mp h
    rw [modify_of_notMem f hk, map_slots_of_notMem f hk]
  | some v =>
    obtain ⟨s, t, hl, hm⟩ := modify_split f h
    have hnd := l.keys_nodup
    simp only [keys, hl, List.map_append, List.map_cons] at hnd
    have hks := List.nodup_middle.mp hnd
    rw [List.nodup_cons, List.mem_append, not_or] at hks
    rw [hm, hl, List.map_append, List.map_cons, map_slots_of_notMem f hks.1.1,
      map_slots_of_notMem f hks.1.2, if_pos rfl]

theorem get?_of_slots_map {l l' : SlotList K V} {f : K → V → V}
    (h : l'.slots = l.slots.map fun e => (e.1, f e.1 e.2)) (k : K) :
    l'.get? k = (l.get? k).map (f k) := by
  apply Option.ext
  intro v
  simp only [get?_eq_some_iff, h, Option.map_eq_some_iff, List.mem_map, Prod.mk.injEq]
  constructor
  · rintro ⟨e, he, rfl, rfl⟩
    exact ⟨e.2, he, rfl⟩
  · rintro ⟨u, hu, rfl⟩
    exact ⟨(k, u), hu, rfl, rfl⟩

/-! ## Sums over the values -/

variable (w : V → Nat)

/-- The sum of a weight over all values. -/
def sum (l : SlotList K V) : Nat := (l.slots.map fun e => w e.2).sum

@[simp] theorem sum_empty : (empty : SlotList K V).sum w = 0 := rfl

theorem sum_push (l : SlotList K V) (k : K) (v : V) (h : k ∉ l.index) :
    (l.push k v h).sum w = l.sum w + w v := by
  simp [sum]

theorem sum_remove {v : V} (h : l.get? k = some v) :
    (l.remove k).sum w + w v = l.sum w := by
  obtain ⟨s, t, hl, hr⟩ := remove_split h
  simp only [sum, hl, hr, List.map_append, List.map_cons, List.sum_append, List.sum_cons]
  omega

theorem sum_modify (f : V → V) {v : V} (h : l.get? k = some v) :
    (l.modify k f).sum w + w v = l.sum w + w (f v) := by
  obtain ⟨s, t, hl, hm⟩ := modify_split f h
  simp only [sum, hl, hm, List.map_append, List.map_cons, List.sum_append, List.sum_cons]
  omega

theorem sum_mapValues (l : SlotList K V) (f : V → V) :
    (l.mapValues f).sum w = l.sum fun v => w (f v) := by
  simp [sum, Function.comp_def]

theorem sum_add (w w' : V → Nat) (l : SlotList K V) :
    l.sum (fun v => w v + w' v) = l.sum w + l.sum w' := by
  simp [sum, List.sum_map_add]

theorem sum_mod_congr {w w' : V → Nat} {m : Nat}
    (h : ∀ e ∈ l.slots, w e.2 % m = w' e.2 % m) : l.sum w % m = l.sum w' % m := by
  unfold sum
  generalize l.slots = slots at h
  induction slots with
  | nil => rfl
  | cons e slots ih =>
    simp only [List.map_cons, List.sum_cons]
    rw [Nat.add_mod, h e (by simp), ih fun e' he => h e' (by simp [he]), ← Nat.add_mod]

end SlotList
