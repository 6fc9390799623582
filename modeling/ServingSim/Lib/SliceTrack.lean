import Mathlib.Tactic
import Mathlib.Data.List.Flatten

/-
  Slices on a timeline track.

  A track is written as the ends of its slices in the order they are emitted, an opening
  end and later its closing one. Slices nest by that order; they are laid out properly
  when the times agree with it.
-/

namespace SliceTrack

/-- One end of a slice. -/
structure Edge where
  opens : Bool
  time : Int
  deriving DecidableEq, Repr

/-- Contiguous slices from one time to another; what is inside a slice fills it, or nothing
is. -/
inductive Slices : Int → Int → List Edge → Prop
  | nil (t : Int) : Slices t t []
  | bare {a b c : Int} {rest : List Edge} (hle : a ≤ b) (hrest : Slices b c rest) :
    Slices a c (⟨true, a⟩ :: ⟨false, b⟩ :: rest)
  | around {a b c : Int} {inner rest : List Edge} (hinner : Slices a b inner)
    (hrest : Slices b c rest) : Slices a c (⟨true, a⟩ :: (inner ++ ⟨false, b⟩ :: rest))

/-- Blocks of contiguous slices, each after the one before. -/
inductive Apart : Int → List Edge → Prop
  | nil (t : Int) : Apart t []
  | block {t a b : Int} {edges rest : List Edge} (hle : t ≤ a) (hedges : Slices a b edges)
    (hrest : Apart b rest) : Apart t (edges ++ rest)

/-- The slices that ends delimit, in the order they close: a closing end is that of the
slice opened last. -/
def spans : List Int → List Edge → List (Int × Int)
  | _, [] => []
  | opened, ⟨true, time⟩ :: rest => spans (time :: opened) rest
  | start :: opened, ⟨false, time⟩ :: rest => (start, time) :: spans opened rest
  | [], ⟨false, _⟩ :: rest => spans [] rest

/-- Two slices that nest, or are apart. -/
def Agree (s s' : Int × Int) : Prop :=
  s.2 ≤ s'.1 ∨ s'.2 ≤ s.1 ∨ s.1 ≤ s'.1 ∧ s'.2 ≤ s.2 ∨ s'.1 ≤ s.1 ∧ s.2 ≤ s'.2

instance (s s' : Int × Int) : Decidable (Agree s s') := inferInstanceAs (Decidable (_ ∨ _))

/-- Any two slices of a track nest or are apart. -/
def Laminar (edges : List Edge) : Prop := (spans [] edges).Pairwise Agree

instance (edges : List Edge) : Decidable (Laminar edges) :=
  inferInstanceAs (Decidable (List.Pairwise _ _))

namespace Slices

variable {a b : Int} {edges : List Edge}

theorem le (h : Slices a b edges) : a ≤ b := by
  induction h with
  | nil => exact le_refl _
  | bare hle _ ih => exact hle.trans ih
  | around _ _ ihinner ih => exact ihinner.trans ih

theorem spans_spec (h : Slices a b edges) : ∃ inside : List (Int × Int),
    (∀ opened rest, spans opened (edges ++ rest) = inside ++ spans opened rest) ∧
      inside.Pairwise Agree ∧ ∀ s ∈ inside, a ≤ s.1 ∧ s.1 ≤ s.2 ∧ s.2 ≤ b := by
  induction h with
  | nil => exact ⟨[], fun _ _ => rfl, .nil, fun s hs => absurd hs List.not_mem_nil⟩
  | @bare a b c rest hle hrest ih =>
    obtain ⟨inside, hspans, hagree, hwithin⟩ := ih
    have hbc := hrest.le
    refine ⟨(a, b) :: inside, fun opened rest' => ?_, .cons (fun s hs => ?_) hagree, ?_⟩
    · rw [List.cons_append, List.cons_append, spans, spans, hspans, List.cons_append]
    · exact .inl (hwithin s hs).1
    · intro s hs
      rcases List.mem_cons.mp hs with rfl | hs
      · exact ⟨le_refl _, hle, hbc⟩
      · obtain ⟨hstart, hordered, hstop⟩ := hwithin s hs
        exact ⟨hle.trans hstart, hordered, hstop⟩
  | @around a b c inner rest hinner hrest ihinner ih =>
    obtain ⟨inside, hspans, hagree, hwithin⟩ := ih
    obtain ⟨inside', hspans', hagree', hwithin'⟩ := ihinner
    have hab := hinner.le
    have hbc := hrest.le
    refine ⟨inside' ++ (a, b) :: inside, fun opened rest' => ?_, ?_, ?_⟩
    · rw [List.cons_append, List.append_assoc, List.cons_append, spans, hspans', spans, hspans,
        List.append_assoc, List.cons_append]
    · -- what is inside nests in the slice, what follows is apart from both
      refine List.pairwise_append.mpr
          ⟨hagree', .cons (fun s hs => ?_) hagree, fun s hs s' hs' => ?_⟩
      · exact .inl (hwithin s hs).1
      · rcases List.mem_cons.mp hs' with rfl | hs'
        · exact .inr (.inr (.inr ⟨(hwithin' s hs).1, (hwithin' s hs).2.2⟩))
        · exact .inl ((hwithin' s hs).2.2.trans (hwithin s' hs').1)
    · intro s hs
      rcases List.mem_append.mp hs with hs | hs
      · obtain ⟨hstart, hordered, hstop⟩ := hwithin' s hs
        exact ⟨hstart, hordered, hstop.trans hbc⟩
      · rcases List.mem_cons.mp hs with rfl | hs
        · exact ⟨le_refl _, hab, hbc⟩
        · obtain ⟨hstart, hordered, hstop⟩ := hwithin s hs
          exact ⟨hab.trans hstart, hordered, hstop⟩

end Slices

/-! ## Slices of items -/

/-- The slices of items in sequence: a bare item has nothing inside, any other the slices of
the items it holds. -/
inductive Lays {ι : Type*} (bare : ι → Prop) (holds : ι → List ι → Prop) :
    List ι → Int → Int → List Edge → Prop
  | nil (t : Int) : Lays bare holds [] t t []
  | bare {item : ι} {items : List ι} {a b c : Int} {rest : List Edge} (hbare : bare item)
    (hle : a ≤ b) (hrest : Lays bare holds items b c rest) :
    Lays bare holds (item :: items) a c (⟨true, a⟩ :: ⟨false, b⟩ :: rest)
  | around {item : ι} {inside items : List ι} {a b c : Int} {inner rest : List Edge}
    (hholds : holds item inside) (hinner : Lays bare holds inside a b inner)
    (hrest : Lays bare holds items b c rest) :
    Lays bare holds (item :: items) a c (⟨true, a⟩ :: (inner ++ ⟨false, b⟩ :: rest))

namespace Lays

variable {ι : Type*} {bare : ι → Prop} {holds : ι → List ι → Prop} {items items' : List ι}
  {a b c : Int} {edges edges' : List Edge}

theorem slices (h : Lays bare holds items a b edges) : Slices a b edges := by
  induction h with
  | nil t => exact .nil t
  | bare _ hle _ ih => exact .bare hle ih
  | around _ _ _ ihinner ih => exact .around ihinner ih

theorem append (h : Lays bare holds items a b edges) (h' : Lays bare holds items' b c edges') :
    Lays bare holds (items ++ items') a c (edges ++ edges') := by
  induction h with
  | nil => exact h'
  | bare hbare hle _ ih => exact .bare hbare hle (ih h')
  | around hholds hinner _ _ ih =>
    rw [List.cons_append, List.cons_append, List.append_assoc, List.cons_append]
    exact .around hholds hinner (ih h')

theorem wrap {item : ι} (hholds : holds item items) (h : Lays bare holds items a b edges) :
    Lays bare holds [item] a b (⟨true, a⟩ :: (edges ++ [⟨false, b⟩])) :=
  .around hholds h (.nil b)

theorem single {item : ι} (hbare : bare item) (h : a ≤ b) :
    Lays bare holds [item] a b [⟨true, a⟩, ⟨false, b⟩] := .bare hbare h (.nil b)

end Lays

/-! ## Blocks -/

theorem Apart.spans_spec {t : Int} {edges : List Edge} (h : Apart t edges) :
    (spans [] edges).Pairwise Agree ∧ ∀ s ∈ spans [] edges, t ≤ s.1 := by
  induction h with
  | nil => exact ⟨.nil, fun s hs => absurd hs List.not_mem_nil⟩
  | block hle hedges _ ih =>
    obtain ⟨inside, hspans, hagree, hwithin⟩ := hedges.spans_spec
    rw [hspans]
    refine ⟨List.pairwise_append.mpr ⟨hagree, ih.1, fun s hs s' hs' => ?_⟩, fun s hs => ?_⟩
    · exact .inl ((hwithin s hs).2.2.trans (ih.2 s' hs'))
    · rcases List.mem_append.mp hs with hs | hs
      · exact hle.trans (hwithin s hs).1
      · exact hle.trans (hedges.le.trans (ih.2 s hs))

theorem Apart.laminar {t : Int} {edges : List Edge} (h : Apart t edges) : Laminar edges :=
  h.spans_spec.1

/-- Slices that are laid out without a break. -/
structure Block where
  start : Int
  stop : Int
  edges : List Edge
  slices : Slices start stop edges

theorem apart_of_pairwise {blocks : List Block}
    (h : blocks.Pairwise fun b b' => b.stop ≤ b'.start) :
    ∃ t, Apart t (blocks.flatMap Block.edges) := by
  have hafter : ∀ t, (∀ b ∈ blocks, t ≤ b.start) → Apart t (blocks.flatMap Block.edges) := by
    induction h with
    | nil => exact fun t _ => .nil t
    | @cons b blocks hb _ ih =>
      intro t ht
      rw [List.flatMap_cons]
      exact .block (ht b List.mem_cons_self) b.slices (ih b.stop hb)
  cases blocks with
  | nil => exact ⟨0, .nil 0⟩
  | cons b blocks =>
    refine ⟨b.start, hafter b.start fun b' hb' => ?_⟩
    rcases List.mem_cons.mp hb' with rfl | hb'
    · exact le_refl _
    · exact b.slices.le.trans (List.rel_of_pairwise_cons h hb')

end SliceTrack
