import Mathlib.Tactic

/-
  Runs of a guarded machine.

  A machine here is a step function and a guard: `step s o` is what operation
  `o` does to state `s`, `guard s o` says when `o` may be issued at `s`. Every
  choice a schedule makes is in the operation, so a list of operations is a
  whole schedule and `Allowed` says that each one was issued where its guard
  held.

  Every prefix of an allowed run is an allowed run (`allowed_append`), so a statement
  about the last state of all allowed runs is one about every state they pass through.
-/

namespace Run

variable {State Op : Type*} (step : State → Op → State) (guard : State → Op → Prop)

/-- The state a list of operations leads to. -/
def run : State → List Op → State
  | s, [] => s
  | s, o :: ops => run (step s o) ops

/-- Every operation was issued at a state where its guard held. -/
def Allowed : State → List Op → Prop
  | _, [] => True
  | s, o :: ops => guard s o ∧ Allowed (step s o) ops

instance decidableAllowed [∀ s o, Decidable (guard s o)] :
    ∀ s ops, Decidable (Allowed step guard s ops)
  | _, [] => .isTrue trivial
  | s, o :: ops =>
    have := decidableAllowed (step s o) ops
    inferInstanceAs (Decidable (guard s o ∧ Allowed step guard (step s o) ops))

@[simp] theorem run_nil (s : State) : run step s [] = s := rfl

@[simp] theorem run_cons (s : State) (o : Op) (ops : List Op) :
    run step s (o :: ops) = run step (step s o) ops := rfl

theorem run_append (s : State) (ops ops' : List Op) :
    run step s (ops ++ ops') = run step (run step s ops) ops' := by
  induction ops generalizing s with
  | nil => rfl
  | cons o ops ih => exact ih (step s o)

variable {step guard}

theorem allowed_append {s : State} {ops ops' : List Op} : Allowed step guard s (ops ++ ops') ↔
      Allowed step guard s ops ∧ Allowed step guard (run step s ops) ops' := by
  induction ops generalizing s with
  | nil => simp [Allowed]
  | cons o ops ih => simp only [List.cons_append, Allowed, run_cons, ih, and_assoc]

theorem invariant (Inv : State → Prop) (hstep : ∀ s o, Inv s → guard s o → Inv (step s o))
    {s : State} {ops : List Op} (hs : Inv s) (h : Allowed step guard s ops) :
    Inv (run step s ops) := by
  induction ops generalizing s with
  | nil => exact hs
  | cons o ops ih => exact ih (hstep s o hs h.1) h.2

theorem run_induction (step : State → Op → State) (guard : State → Op → Prop) {s : State}
    {P : List Op → State → Prop} (init : P [] s)
    (hstep : ∀ ops o, P ops (run step s ops) → guard (run step s ops) o →
      P (ops ++ [o]) (step (run step s ops) o))
    {ops : List Op} (h : Allowed step guard s ops) : P ops (run step s ops) := by
  induction ops using List.reverseRecOn with
  | nil => exact init
  | append_singleton ops o ih =>
    obtain ⟨hops, hguard, -⟩ := allowed_append.mp h
    rw [run_append]
    exact hstep ops o (ih hops) hguard

/-! ## Machines that can fail -/

section fallible

variable {State Op ε : Type} (step : State → Op → Except ε State) (guard : State → Op → Prop)

/-- The state a list of operations leads to, unless one of them fails. -/
def tryRun (s : State) (ops : List Op) : Except ε State := ops.foldlM step s

/-- A predicate holds of the state a step ends in, if it does not fail. -/
def Ends (P : State → Prop) : Except ε State → Prop
  | .ok s => P s
  | .error _ => True

/-- Every operation that is reached was issued at a state where its guard held. -/
def TryAllowed : State → List Op → Prop
  | _, [] => True
  | s, o :: ops => guard s o ∧ Ends (fun s' => TryAllowed s' ops) (step s o)

instance decidableTryAllowed [∀ s o, Decidable (guard s o)] :
    ∀ s ops, Decidable (TryAllowed step guard s ops)
  | _, [] => .isTrue trivial
  | s, o :: ops =>
    have : ∀ x : Except ε State, Decidable (Ends (fun s' => TryAllowed step guard s' ops) x)
      | .ok s' => decidableTryAllowed s' ops
      | .error _ => .isTrue trivial
    inferInstanceAs (Decidable (_ ∧ Ends (fun s' => TryAllowed step guard s' ops) (step s o)))

variable {step guard}

@[simp] theorem tryRun_nil (s : State) : tryRun step s [] = .ok s := rfl

variable {s s' : State}

theorem tryRun_cons_eq_ok_iff {o : Op} {ops : List Op} :
    tryRun step s (o :: ops) = .ok s' ↔ ∃ t, step s o = .ok t ∧ tryRun step t ops = .ok s' := by
  rw [tryRun, List.foldlM_cons]
  cases h : step s o with
  | error e => simp [bind, Except.bind]
  | ok t => simp [bind, Except.bind, tryRun]

theorem TryAllowed.tail {o : Op} {ops : List Op}
    (h : TryAllowed step guard s (o :: ops)) (hs : step s o = .ok s') :
    TryAllowed step guard s' ops := by
  have h' := h.2
  rwa [hs] at h'

theorem tryRun_induction {I : List Op → State → Prop}
    (hstep : ∀ o rest s s', I (o :: rest) s → step s o = .ok s' → I rest s')
    {ops : List Op} (hs : I ops s) (h : tryRun step s ops = .ok s') : I [] s' := by
  induction ops generalizing s with
  | nil =>
    cases h
    exact hs
  | cons o ops ih =>
    obtain ⟨t, ht, h⟩ := tryRun_cons_eq_ok_iff.mp h
    exact ih (hstep o ops s t hs ht) h

theorem tryInvariant (Inv : State → Prop)
    (hstep : ∀ s o s', Inv s → guard s o → step s o = .ok s' → Inv s')
    {ops : List Op} (hs : Inv s) (hallowed : TryAllowed step guard s ops)
    (h : tryRun step s ops = .ok s') : Inv s' :=
  (tryRun_induction (I := fun ops s => Inv s ∧ TryAllowed step guard s ops)
    (fun o _ s s' hI ho => ⟨hstep s o s' hI.1 hI.2.1 ho, hI.2.tail ho⟩) ⟨hs, hallowed⟩ h).1

end fallible

end Run
