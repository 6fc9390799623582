import ServingSim.Lib.Run

/-
  Resources that are booked one use at a time.

  Every resource has a time from which it is idle. A step of the machine books some
  resources, each for an interval that starts when the resource is idle, and moves the
  idle time to the interval's end. Nothing else has to be known of the machine: the
  intervals booked of one resource over a whole run follow one another.
-/

namespace ExclusiveUse

/-- A resource held from `start` to `stop`. -/
structure Booking (K : Type*) where
  resource : K
  start : Nat
  stop : Nat
  deriving DecidableEq

variable {K State Op : Type*}

/-- What a step that books intervals does to the idle times. -/
structure Books (free free' : K → Nat) (booked : List (Booking K)) : Prop where
  /-- No resource is booked twice. -/
  once : (booked.map fun b => b.resource).Nodup
  idle : ∀ b ∈ booked, free b.resource ≤ b.start
  ordered : ∀ b ∈ booked, b.start ≤ b.stop
  held : ∀ b ∈ booked, free' b.resource = b.stop
  frame : ∀ k, k ∉ booked.map (fun b => b.resource) → free' k = free k

theorem Books.nothing (free : K → Nat) : Books free free [] where
  once := List.nodup_nil
  idle := by simp
  ordered := by simp
  held := by simp
  frame := by simp

variable {free free' : K → Nat} {booked : List (Booking K)}

theorem Books.mono (h : Books free free' booked) (k : K) : free k ≤ free' k := by
  by_cases hk : k ∈ booked.map fun b => b.resource
  · obtain ⟨b, hb, rfl⟩ := List.mem_map.mp hk
    calc free b.resource ≤ b.start := h.idle b hb
      _ ≤ b.stop := h.ordered b hb
      _ = free' b.resource := (h.held b hb).symm
  · exact (h.frame k hk).ge

/-- Two intervals, the first booked first, do not share any time of one resource. -/
def Follows (a b : Booking K) : Prop := a.resource = b.resource → a.stop ≤ b.start

theorem Books.follows (h : Books free free' booked) : booked.Pairwise Follows := by
  have hne : booked.Pairwise fun a b => a.resource ≠ b.resource := List.pairwise_map.mp h.once
  exact hne.imp fun hab heq => absurd heq hab

/-! ## Runs -/

variable (step : State → Op → State) (guard : State → Op → Prop)
  (booking : State → Op → List (Booking K)) (idleFrom : State → K → Nat)

/-- All intervals a run books, in order. -/
def bookings : State → List Op → List (Booking K)
  | _, [] => []
  | s, o :: ops => booking s o ++ bookings (step s o) ops

variable {step guard booking idleFrom}
  (hstep : ∀ s o, guard s o → Books (idleFrom s) (idleFrom (step s o)) (booking s o))

include hstep

section

variable {s : State} {ops : List Op} (h : Run.Allowed step guard s ops)

include s ops h

theorem free_le_run (k : K) :
    idleFrom s k ≤ idleFrom (Run.run step s ops) k := by
  induction ops generalizing s with
  | nil => exact Nat.le_refl _
  | cons o ops ih => exact ((hstep s o h.1).mono k).trans (ih h.2)

/-- What a run books starts when the resource is idle. -/
theorem idle_le_start :
    ∀ b ∈ bookings step booking s ops, idleFrom s b.resource ≤ b.start := by
  induction ops generalizing s with
  | nil =>
    intro b hb
    cases hb
  | cons o ops ih =>
    intro b hb
    rcases List.mem_append.mp hb with hnow | hlater
    · exact (hstep s o h.1).idle b hnow
    · exact ((hstep s o h.1).mono b.resource).trans (ih h.2 b hlater)

theorem start_le_stop :
    ∀ b ∈ bookings step booking s ops, b.start ≤ b.stop := by
  induction ops generalizing s with
  | nil =>
    intro b hb
    cases hb
  | cons o ops ih =>
    intro b hb
    rcases List.mem_append.mp hb with hnow | hlater
    · exact (hstep s o h.1).ordered b hnow
    · exact ih h.2 b hlater

/-- The intervals of one resource follow one another. -/
theorem bookings_exclusive :
    (bookings step booking s ops).Pairwise Follows := by
  induction ops generalizing s with
  | nil => exact List.Pairwise.nil
  | cons o ops ih =>
    have hbooks := hstep s o h.1
    refine List.pairwise_append.mpr ⟨hbooks.follows, ih h.2, ?_⟩
    intro a ha b hb hsame
    calc a.stop = idleFrom (step s o) a.resource := (hbooks.held a ha).symm
      _ = idleFrom (step s o) b.resource := by rw [hsame]
      _ ≤ b.start := idle_le_start hstep h.2 b hb

end

end ExclusiveUse
