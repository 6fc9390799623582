import Mathlib.Data.Prod.Lex
import ServingSim.Common.Checked
import ServingSim.Lib.Grouped
import ServingSim.Lib.IntervalUnion

/-
  A measured iteration as the alignment report reads it (`alignment_iteration`).

  An iteration is a list of logical kernel occurrences in program order, each with its
  launches on the ranks' streams. Instants are nanoseconds; sums of durations of one
  iteration stay far below `2^64`, a difference of two instants may not.

  An occurrence keeps what the barrier path reads of it: its operation, whether it
  synchronizes, and its launches.
-/

namespace ServingSim

structure KernelLaunch where
  deviceId : Int
  startNs : Nat
  endNs : Nat
  trackIndex : Nat
  streamId : Option Nat
  deriving DecidableEq, Repr

/-- The stream of a launch within its device; its track where the capture has no stream. -/
def streamKey (launch : KernelLaunch) : Bool × Nat :=
  match launch.streamId with
  | some streamId => (true, streamId)
  | none => (false, launch.trackIndex)

def KernelLaunch.interval (launch : KernelLaunch) : Nat × Nat := (launch.startNs, launch.endNs)

/-- One logical kernel occurrence. -/
structure IterationKernel where
  operation : Option String
  synchronizing : Bool
  launches : List KernelLaunch
  deriving DecidableEq, Repr

structure IterationMeasurement where
  kernels : List IterationKernel
  deviceIds : Finset Int

namespace IterationMeasurement

def launches (m : IterationMeasurement) : List KernelLaunch :=
  m.kernels.flatMap fun kernel => kernel.launches

/-- The launches with their places: the kernel's position, and the launch's index in it. -/
def placed (m : IterationMeasurement) : List ((Nat × Nat) × KernelLaunch) :=
  m.kernels.zipIdx.flatMap fun kernel =>
    kernel.1.launches.zipIdx.map fun launch => ((kernel.2, launch.2), launch.1)

/-- Every launch ends no earlier than it starts. -/
def Forward (m : IterationMeasurement) : Prop :=
  ∀ launch ∈ m.launches, launch.startNs ≤ launch.endNs

theorem mem_placed {m : IterationMeasurement} {place : Nat × Nat} {launch : KernelLaunch} :
    (place, launch) ∈ m.placed ↔
      ∃ kernel, m.kernels[place.1]? = some kernel ∧ kernel.launches[place.2]? = some launch := by
  simp only [placed, List.mem_flatMap, List.mem_map]
  constructor
  · rintro ⟨e, he, f, hf, heq⟩
    obtain ⟨rfl, rfl⟩ := Prod.mk.inj heq
    exact ⟨e.1, List.mk_mem_zipIdx_iff_getElem?.mp he, List.mk_mem_zipIdx_iff_getElem?.mp hf⟩
  · rintro ⟨kernel, hkernel, hlaunch⟩
    exact ⟨(kernel, place.1), List.mk_mem_zipIdx_iff_getElem?.mpr hkernel, (launch, place.2),
      List.mk_mem_zipIdx_iff_getElem?.mpr hlaunch, rfl⟩

theorem nodup_places (m : IterationMeasurement) : (m.placed.map Prod.fst).Nodup := by
  rw [placed, List.map_flatMap, List.nodup_flatMap]
  have hpositions : (m.kernels.zipIdx.map Prod.snd).Nodup := by
    rw [List.zipIdx_map_snd]
    exact List.nodup_range'
  refine ⟨fun kernel _ => ?_, ?_⟩
  · have hindices : (kernel.1.launches.zipIdx.map Prod.snd).Nodup := by
      rw [List.zipIdx_map_snd]
      exact List.nodup_range'
    have hplaces : (kernel.1.launches.zipIdx.map fun launch => (kernel.2, launch.2)) =
        (kernel.1.launches.zipIdx.map Prod.snd).map (Prod.mk kernel.2) := by
      rw [List.map_map]
      rfl
    rw [List.map_map]
    exact hplaces ▸ hindices.map (Prod.mk_right_injective kernel.2)
  · -- different kernels, different positions
    refine (List.pairwise_map.mp hpositions).imp fun {kernel other} hne => ?_
    intro place hplace hplace'
    simp only [List.mem_map] at hplace hplace'
    obtain ⟨_, ⟨launch, -, rfl⟩, rfl⟩ := hplace
    obtain ⟨_, ⟨launch', -, rfl⟩, heq⟩ := hplace'
    exact hne (congrArg Prod.fst heq).symm

end IterationMeasurement

/-! ## Interval unions -/

/-- Sort and coalesce, without the reversed intervals. -/
def mergeIntervals (intervals : List (Nat × Nat)) : List (Nat × Nat) :=
  IntervalUnion.coalesce ((intervals.filter fun interval => interval.2 ≥ interval.1).insertionSort
    fun a b => toLex a ≤ toLex b)

def intervalUnionNs (intervals : List (Nat × Nat)) : Nat :=
  ((mergeIntervals intervals).map fun interval => interval.2 - interval.1).sum

section union

variable (intervals : List (Nat × Nat))

theorem sorted_intervals :
    (∀ interval ∈ (intervals.filter fun interval => interval.2 ≥ interval.1).insertionSort
      fun a b => toLex a ≤ toLex b, interval.1 ≤ interval.2) ∧
    ((intervals.filter fun interval => interval.2 ≥ interval.1).insertionSort
      fun a b => toLex a ≤ toLex b).Pairwise fun a b => a.1 ≤ b.1 := by
  refine ⟨fun interval hmem => ?_, ?_⟩
  · rw [List.mem_insertionSort, List.mem_filter] at hmem
    exact of_decide_eq_true hmem.2
  · refine (List.pairwise_insertionSort (fun a b : Nat × Nat => toLex a ≤ toLex b) _).imp ?_
    intro a b hab
    exact Prod.Lex.monotone_fst _ _ hab

theorem intervalUnionNs_eq : intervalUnionNs intervals = (IntervalUnion.cover intervals).card := by
  obtain ⟨hvalid, hsorted⟩ := sorted_intervals intervals
  have hsum := IntervalUnion.sum_lengths_coalesce hvalid hsorted
  refine hsum.trans (congrArg Finset.card ?_)
  rw [IntervalUnion.cover_perm (List.perm_insertionSort _ _)]
  refine IntervalUnion.cover_filter fun interval _ hlt => ?_
  exact decide_eq_true hlt.le

end union

end ServingSim
