import Mathlib.Tactic

/-
  Spans laid end to end.

  A span is where it starts and how long it is. `LaidFrom start spans` says that the
  first span begins at `start`, each next one where the one before ended, and none is
  empty: the way a long piece of work is cut into pieces that are done in order.
-/

namespace EndToEnd

/-- Spans, none empty, the first at a start and each next where the one before ended. -/
def LaidFrom : Nat → List (Nat × Nat) → Prop
  | _, [] => True
  | start, span :: rest => span.1 = start ∧ 0 < span.2 ∧ LaidFrom (start + span.2) rest

/-- The length of all the spans. -/
def total (spans : List (Nat × Nat)) : Nat := (spans.map Prod.snd).sum

@[simp] theorem total_nil : total [] = 0 := rfl

@[simp] theorem total_cons (span : Nat × Nat) (rest : List (Nat × Nat)) :
    total (span :: rest) = span.2 + total rest := List.sum_cons

@[simp] theorem total_append (spans spans' : List (Nat × Nat)) :
    total (spans ++ spans') = total spans + total spans' := by
  simp [total]

variable {start : Nat} {spans : List (Nat × Nat)}

theorem LaidFrom.concat (h : LaidFrom start spans) {length : Nat} (hlength : 0 < length) :
    LaidFrom start (spans ++ [(start + total spans, length)]) := by
  induction spans generalizing start with
  | nil => exact ⟨rfl, hlength, trivial⟩
  | cons span rest ih =>
    obtain ⟨hstart, hpositive, hrest⟩ := h
    refine ⟨hstart, hpositive, ?_⟩
    have hnext := ih hrest
    rw [Nat.add_assoc] at hnext
    rw [total_cons]
    exact hnext

theorem LaidFrom.within (h : LaidFrom start spans) :
    ∀ span ∈ spans, start ≤ span.1 ∧ span.1 + span.2 ≤ start + total spans := by
  induction spans generalizing start with
  | nil =>
    intro span hspan
    cases hspan
  | cons first rest ih =>
    obtain ⟨hstart, -, hrest⟩ := h
    intro span hspan
    rw [total_cons]
    rcases List.mem_cons.mp hspan with rfl | hspan
    · omega
    · have hin := ih hrest span hspan
      omega

theorem LaidFrom.ordered (h : LaidFrom start spans) :
    spans.Pairwise fun a b => a.1 + a.2 ≤ b.1 := by
  induction spans generalizing start with
  | nil => exact .nil
  | cons first rest ih =>
    obtain ⟨hstart, -, hrest⟩ := h
    refine List.pairwise_cons.mpr ⟨?_, ih hrest⟩
    intro span hspan
    rw [hstart]
    exact (hrest.within span hspan).1

theorem LaidFrom.covers (h : LaidFrom start spans) {point : Nat} (hstart : start ≤ point)
    (hend : point < start + total spans) :
    ∃ span ∈ spans, span.1 ≤ point ∧ point < span.1 + span.2 := by
  induction spans generalizing start with
  | nil =>
    rw [total_nil] at hend
    omega
  | cons first rest ih =>
    obtain ⟨hfirst, -, hrest⟩ := h
    rw [total_cons] at hend
    by_cases hin : point < start + first.2
    · exact ⟨first, List.mem_cons_self, by omega, by omega⟩
    · obtain ⟨span, hspan, hpoint⟩ := ih hrest (by omega) (by omega)
      exact ⟨span, List.mem_cons_of_mem _ hspan, hpoint⟩

end EndToEnd
