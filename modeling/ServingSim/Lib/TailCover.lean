import Mathlib.Order.Interval.Finset.Nat
import Mathlib.Tactic

/-
  How many numbers the tails before a set of positions cover.

  The tail of a position `p` is the `w` numbers that end in it, cut at one. Tails of
  neighbouring positions overlap when they are closer than `w`, so the size of the union
  is not a product. But between two neighbouring positions it is simple: the tail of the
  upper one covers `min (gap) w` of the gap and the lower ones cover nothing, so a union
  is counted gap by gap.
-/

namespace TailCover

variable (positions : Finset Nat) (w : Nat)

/-- Some position has `t` in its tail. -/
def Covered (t : Nat) : Prop := ∃ p ∈ positions, t ≤ p ∧ p < t + w

instance (t : Nat) : Decidable (Covered positions w t) :=
  inferInstanceAs (Decidable (∃ p ∈ positions, _))

/-- How many numbers of `(start, stop]` the tails cover. -/
def coveredWithin (start stop : Nat) : Nat :=
  ((Finset.Ioc start stop).filter (Covered positions w)).card

/-- The union of the tails. -/
def tails : Finset Nat := positions.biUnion fun p => Finset.Ioc (p - w) p

variable {positions w} {start mid stop : Nat}

@[simp] theorem covered_self : coveredWithin positions w start start = 0 := by
  simp [coveredWithin]

theorem covered_add (h : start ≤ mid) (h' : mid ≤ stop) : coveredWithin positions w start stop =
      coveredWithin positions w start mid + coveredWithin positions w mid stop := by
  unfold coveredWithin
  rw [← Finset.card_union_of_disjoint, ← Finset.filter_union, Finset.Ioc_union_Ioc_eq_Ioc h h']
  apply Finset.disjoint_filter_filter
  rw [Finset.disjoint_left]
  intro t ht ht'
  simp only [Finset.mem_Ioc] at ht ht'
  omega

theorem covered_gap (hle : start ≤ stop) (hstop : stop ∈ positions)
    (hgap : ∀ p ∈ positions, p ≤ start ∨ stop ≤ p) :
    coveredWithin positions w start stop = min (stop - start) w := by
  have hset : (Finset.Ioc start stop).filter (Covered positions w) =
      Finset.Ioc (max start (stop - w)) stop := by
    ext t
    simp only [Finset.mem_filter, Finset.mem_Ioc, Covered]
    constructor
    · intro ⟨⟨hlow, hhigh⟩, p, hp, htp, hpt⟩
      have hnext := hgap p hp
      omega
    · intro ⟨hlow, hhigh⟩
      refine ⟨by omega, stop, hstop, hhigh, by omega⟩
  rw [coveredWithin, hset, Nat.card_Ioc]
  omega

theorem covered_beyond (h : ∀ p ∈ positions, p ≤ start) :
    coveredWithin positions w start stop = 0 := by
  rw [coveredWithin, Finset.card_eq_zero, Finset.filter_eq_empty_iff]
  intro t ht ⟨p, hp, htp, _⟩
  have hle := h p hp
  rw [Finset.mem_Ioc] at ht
  omega

theorem card_tails (h : ∀ p ∈ positions, p ≤ stop) :
    (tails positions w).card = coveredWithin positions w 0 stop := by
  unfold coveredWithin
  congr 1
  ext t
  simp only [tails, Finset.mem_biUnion, Finset.mem_filter, Finset.mem_Ioc, Covered]
  constructor
  · intro ⟨p, hp, hlow, hhigh⟩
    have hle := h p hp
    refine ⟨by omega, p, hp, hhigh, by omega⟩
  · intro ⟨⟨hpos, _⟩, p, hp, htp, hpt⟩
    exact ⟨p, hp, by omega, htp⟩

/-! ## Walking a sorted list -/

/-- The tails of a list of positions, each cut at the one before it. -/
def walkTails (w : Nat) : Nat → List Nat → Nat
  | _, [] => 0
  | previous, p :: rest => min (p - previous) w + walkTails w p rest

/-- The positions behind `start` are a sorted list, up to those behind all of the list. -/
structure Follows (positions : Finset Nat) (start : Nat) (points : List Nat) : Prop where
  sorted : (start :: points).Pairwise (· < ·)
  mem : ∀ p ∈ points, p ∈ positions
  only : ∀ p ∈ positions, start < p → p ∈ points ∨ ∀ q ∈ points, q < p

theorem le_getLastD {points : List Nat} (h : (start :: points).Pairwise (· < ·)) {p : Nat}
    (hp : p ∈ start :: points) : p ≤ points.getLastD start := by
  induction points generalizing start p with
  | nil => exact (List.mem_singleton.mp hp).le
  | cons q rest ih =>
    obtain ⟨hstart, hrest⟩ := List.pairwise_cons.mp h
    rw [List.getLastD_cons]
    rcases List.mem_cons.mp hp with rfl | hp
    · have hq := ih hrest List.mem_cons_self
      have hlt := hstart q List.mem_cons_self
      omega
    · exact ih hrest hp

theorem Follows.next {p : Nat} {rest : List Nat} (h : Follows positions start (p :: rest)) :
    Follows positions p rest := by
  obtain ⟨hstart, hsorted⟩ := List.pairwise_cons.mp h.sorted
  refine ⟨hsorted, fun q hq => h.mem q (List.mem_cons_of_mem p hq), ?_⟩
  intro q hq hlt
  have hp := hstart p List.mem_cons_self
  rcases h.only q hq (by omega) with hmem | hlater
  · rcases List.mem_cons.mp hmem with rfl | hmem
    · omega
    · exact .inl hmem
  · exact .inr fun r hr => hlater r (List.mem_cons_of_mem p hr)

theorem covered_walk {points : List Nat} (h : Follows positions start points)
    (hstop : points.getLastD start ≤ stop) :
    coveredWithin positions w start stop =
      walkTails w start points + coveredWithin positions w (points.getLastD start) stop := by
  induction points generalizing start with
  | nil => simp [walkTails]
  | cons p rest ih =>
    obtain ⟨hstart, hsorted⟩ := List.pairwise_cons.mp h.sorted
    have hlt : start < p := hstart p List.mem_cons_self
    rw [List.getLastD_cons] at hstop ⊢
    have hreach : p ≤ rest.getLastD p := le_getLastD hsorted List.mem_cons_self
    -- nothing lies between the start and the first point
    have hgap : ∀ q ∈ positions, q ≤ start ∨ p ≤ q := by
      intro q hq
      by_cases hqs : q ≤ start
      · exact .inl hqs
      · right
        rcases h.only q hq (by omega) with hmem | hlater
        · rcases List.mem_cons.mp hmem with rfl | hmem
          · exact Nat.le_refl q
          · exact Nat.le_of_lt (List.rel_of_pairwise_cons hsorted hmem)
        · exact Nat.le_of_lt (hlater p List.mem_cons_self)
    calc coveredWithin positions w start stop
        = coveredWithin positions w start p + coveredWithin positions w p stop :=
          covered_add (Nat.le_of_lt hlt) (hreach.trans hstop)
      _ = min (p - start) w + (walkTails w p rest +
            coveredWithin positions w (rest.getLastD p) stop) := by
          rw [covered_gap (Nat.le_of_lt hlt) (h.mem p List.mem_cons_self) hgap, ih h.next hstop]
      _ = walkTails w start (p :: rest) + coveredWithin positions w (rest.getLastD p) stop := by
          rw [walkTails, Nat.add_assoc]

theorem covered_series {spacing first last : Nat} (hle : first ≤ last)
    (hmem : ∀ k, first < k → k ≤ last → k * spacing ∈ positions)
    (hgap : ∀ p ∈ positions, first * spacing < p → p ≤ last * spacing → spacing ∣ p) :
    coveredWithin positions w (first * spacing) (last * spacing) =
      (last - first) * min spacing w := by
  induction last, hle using Nat.le_induction with
  | base => simp
  | succ last hle ih =>
    have hstep : last * spacing ≤ (last + 1) * spacing := Nat.mul_le_mul_right _ (Nat.le_succ _)
    have hfirst : first * spacing ≤ last * spacing := Nat.mul_le_mul_right _ hle
    rw [covered_add hfirst hstep, ih (fun k hk hk' => hmem k hk (by omega))
      fun p hp hlow hhigh => hgap p hp hlow (by omega)]
    rw [covered_gap hstep (hmem (last + 1) (by omega) (Nat.le_refl _))]
    · have hsub : (last + 1) * spacing - last * spacing = spacing := by
        rw [Nat.add_mul, Nat.one_mul]
        omega
      rw [hsub, Nat.succ_sub hle, Nat.succ_mul]
    · intro p hp
      by_contra hbetween
      obtain ⟨hlow, hhigh⟩ := not_or.mp hbetween
      obtain ⟨k, rfl⟩ := hgap p hp (by omega) (by omega)
      -- no multiple lies strictly between two neighbouring ones
      rw [Nat.mul_comm spacing k] at hlow hhigh
      have hk := Nat.lt_of_mul_lt_mul_right (Nat.not_le.mp hlow)
      have hk' := Nat.lt_of_mul_lt_mul_right (Nat.not_le.mp hhigh)
      omega

end TailCover
