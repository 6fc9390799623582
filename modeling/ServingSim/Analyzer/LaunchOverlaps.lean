import ServingSim.Analyzer.IterationMeasurement

/-
  How much of each launch overlaps other launches of its device
  (`barrier::launch_overlaps`).

  The launches of one device are sorted by start. From each of them the scan goes right
  until a launch starts no earlier than it ends, and what it met on the way is noted on
  both sides. So a launch has the ones that reached it and the ones it reached, and
  these are all that overlap it.

  What is proved:
    1. `launch_overlaps_complete` — each measure of a launch is the size of what it
       names.

  Renamed (Rust ↔ Lean):
    `by_device` ↔ `deviceLaunches`, `Grouped.group`
    `pairs` ↔ `reached`, `reaches`, `overlapPairs`
    `covered`, `partners` ↔ `launchOverlap`
    `out[position][launch_index] = …` ↔ `writeAt`
-/

namespace ServingSim

open IntervalUnion

/-- What a device's launches say about one of them. -/
structure LaunchOverlap where
  overlapNs : Nat := 0
  sameStreamNs : Nat := 0
  crossStreamNs : Nat := 0
  /-- For each overlapping position, in position order. -/
  partners : List (Nat × Nat) := []
  deriving DecidableEq, Repr

structure DeviceLaunch where
  startNs : Nat
  endNs : Nat
  position : Nat
  launchIndex : Nat
  stream : Bool × Nat
  deriving DecidableEq, Repr

namespace DeviceLaunch

/-- The order of the tuples. -/
def key (launch : DeviceLaunch) : Nat ×ₗ Nat ×ₗ Nat ×ₗ Nat ×ₗ Bool ×ₗ Nat :=
  toLex (launch.startNs, toLex (launch.endNs, toLex (launch.position, toLex (launch.launchIndex,
    toLex launch.stream))))

def interval (launch : DeviceLaunch) : Nat × Nat := (launch.startNs, launch.endNs)

/-- Where the launch is in the measurement. -/
def place (launch : DeviceLaunch) : Nat × Nat := (launch.position, launch.launchIndex)

end DeviceLaunch

/-- The launch `index` of the kernel at `position`. -/
def KernelLaunch.deviceLaunch (launch : KernelLaunch) (position index : Nat) : DeviceLaunch :=
  ⟨launch.startNs, launch.endNs, position, index, streamKey launch⟩

/-- The launches of positive length, each with its device. -/
def deviceLaunches (m : IterationMeasurement) : List (Int × DeviceLaunch) :=
  m.placed.filterMap fun e =>
    if e.2.endNs > e.2.startNs then some (e.2.deviceId, e.2.deviceLaunch e.1.1 e.1.2) else none

/-- The launches whose scan does not break before `me`. -/
def reached (me : DeviceLaunch) : List DeviceLaunch → List DeviceLaunch
  | [] => []
  | left :: between =>
    if (between ++ [me]).all fun right => right.startNs < left.endNs then
      left :: reached me between
    else reached me between

/-- The launches the scan of `me` meets before it breaks. -/
def reaches (me : DeviceLaunch) (later : List DeviceLaunch) : List DeviceLaunch :=
  later.takeWhile fun right => right.startNs < me.endNs

/-- Each launch of a sorted list with the overlapping ones. -/
def overlapPairs (earlier : List DeviceLaunch) :
    List DeviceLaunch → List (DeviceLaunch × List DeviceLaunch)
  | [] => []
  | me :: later =>
    (me, reached me earlier ++ reaches me later) :: overlapPairs (earlier ++ [me]) later

def launchOverlap (me : DeviceLaunch) (others : List DeviceLaunch) : LaunchOverlap :=
  let covered := fun launches : List DeviceLaunch =>
    intervalUnionNs (launches.map fun other => clip me.startNs me.endNs other.interval)
  { overlapNs := covered others
    sameStreamNs := covered (others.filter fun other => other.stream = me.stream)
    crossStreamNs := covered (others.filter fun other => other.stream ≠ me.stream)
    partners := (Grouped.group DeviceLaunch.position others).map fun g => (g.1, covered g.2) }

def writeAt {α : Type} (out : List (List α)) (write : (Nat × Nat) × α) : List (List α) :=
  out.modify write.1.1 fun row => row.set write.1.2 write.2

/-- What is written for one device. -/
def deviceOverlaps (launches : List DeviceLaunch) : List ((Nat × Nat) × LaunchOverlap) :=
  (overlapPairs [] (launches.insertionSort fun a b => a.key ≤ b.key)).filterMap fun pair =>
    if pair.2.isEmpty then none else some (pair.1.place, launchOverlap pair.1 pair.2)

def launchOverlaps (m : IterationMeasurement) : List (List LaunchOverlap) :=
  ((Grouped.group Prod.fst (deviceLaunches m)).flatMap fun g =>
    deviceOverlaps (g.2.map Prod.snd)).foldl writeAt
    (m.kernels.map fun kernel => kernel.launches.map fun _ => {})

/-! ## Scans -/

section scan

variable {me other : DeviceLaunch} {earlier later : List DeviceLaunch}

theorem mem_reached_of_sorted
    (hsorted : (earlier ++ [me]).Pairwise fun a b => a.startNs ≤ b.startNs) :
    other ∈ reached me earlier ↔ other ∈ earlier ∧ me.startNs < other.endNs := by
  induction earlier with
  | nil => simp [reached]
  | cons left between ih =>
    rw [List.cons_append, List.pairwise_cons] at hsorted
    obtain ⟨hleft, hrest⟩ := hsorted
    have hmem := ih hrest
    -- the scan from `left` reaches `me` when `me` starts before `left` ends
    have hall : ((between ++ [me]).all fun right => right.startNs < left.endNs) = true ↔
        me.startNs < left.endNs := by
      rw [List.all_eq_true]
      constructor
      · intro h
        exact of_decide_eq_true (h me (by simp))
      · intro h right hright
        rw [decide_eq_true_eq]
        have hlast : right.startNs ≤ me.startNs := by
          rw [List.pairwise_append] at hrest
          rcases List.mem_append.mp hright with hbetween | hme
          · exact hrest.2.2 right hbetween me (List.mem_singleton_self _)
          · rw [List.mem_singleton.mp hme]
        omega
    rw [reached]
    by_cases hreach : me.startNs < left.endNs
    · rw [if_pos (hall.mpr hreach), List.mem_cons, List.mem_cons, hmem]
      constructor
      · rintro (rfl | ⟨hin, hend⟩)
        · exact ⟨.inl rfl, hreach⟩
        · exact ⟨.inr hin, hend⟩
      · rintro ⟨rfl | hin, hend⟩
        · exact .inl rfl
        · exact .inr ⟨hin, hend⟩
    · rw [if_neg (fun h => hreach (hall.mp h)), hmem, List.mem_cons]
      constructor
      · rintro ⟨hin, hend⟩
        exact ⟨.inr hin, hend⟩
      · rintro ⟨rfl | hin, hend⟩
        · exact absurd hend hreach
        · exact ⟨hin, hend⟩

theorem mem_reaches_of_sorted (hsorted : later.Pairwise fun a b => a.startNs ≤ b.startNs) :
    other ∈ reaches me later ↔ other ∈ later ∧ other.startNs < me.endNs := by
  induction later with
  | nil => simp [reaches]
  | cons right later ih =>
    rw [List.pairwise_cons] at hsorted
    obtain ⟨hright, hrest⟩ := hsorted
    have hmem := ih hrest
    unfold reaches at hmem ⊢
    by_cases hbefore : right.startNs < me.endNs
    · rw [List.takeWhile_cons_of_pos (by simpa using hbefore), List.mem_cons, hmem, List.mem_cons]
      constructor
      · rintro (rfl | ⟨hin, hstart⟩)
        · exact ⟨.inl rfl, hbefore⟩
        · exact ⟨.inr hin, hstart⟩
      · rintro ⟨rfl | hin, hstart⟩
        · exact .inl rfl
        · exact .inr ⟨hin, hstart⟩
    · rw [List.takeWhile_cons_of_neg (by simpa using hbefore)]
      constructor
      · intro hnil
        exact (List.not_mem_nil hnil).elim
      · rintro ⟨hin, hstart⟩
        -- nothing behind a launch that starts too late starts in time
        rcases List.mem_cons.mp hin with rfl | hin
        · exact absurd hstart hbefore
        · have hle := hright other hin
          omega

theorem mem_overlapPairs {launches : List DeviceLaunch} {others : List DeviceLaunch}
    (hsorted : (earlier ++ launches).Pairwise fun a b => a.startNs ≤ b.startNs)
    (h : (me, others) ∈ overlapPairs earlier launches) :
    ∃ before after, launches = before ++ me :: after ∧ ∀ other, other ∈ others ↔
        other ∈ earlier ++ before ∧ me.startNs < other.endNs ∨
        other ∈ after ∧ other.startNs < me.endNs := by
  induction launches generalizing earlier with
  | nil => exact (List.not_mem_nil h).elim
  | cons first launches ih =>
    rw [overlapPairs] at h
    have hregroup : earlier ++ first :: launches = earlier ++ [first] ++ launches := by simp
    rcases List.mem_cons.mp h with heq | h
    · obtain ⟨hme, hothers⟩ := Prod.mk.inj heq
      subst hme hothers
      refine ⟨[], launches, rfl, fun other => ?_⟩
      rw [hregroup, List.pairwise_append] at hsorted
      rw [List.mem_append, mem_reached_of_sorted hsorted.1, mem_reaches_of_sorted hsorted.2.1,
        List.append_nil]
    · rw [hregroup] at hsorted
      obtain ⟨before, after, rfl, hothers⟩ := ih hsorted h
      refine ⟨first :: before, after, rfl, fun other => ?_⟩
      rw [hothers]
      simp

theorem overlapPairs_fst (earlier launches : List DeviceLaunch) :
    (overlapPairs earlier launches).map Prod.fst = launches := by
  induction launches generalizing earlier with
  | nil => rfl
  | cons me launches ih => rw [overlapPairs, List.map_cons, ih]

end scan

/-! ## Measures -/

/-- The instants of a launch that the launches of a list cover. -/
def overlapOf (me : DeviceLaunch) (others : List DeviceLaunch) : Finset Nat :=
  Finset.Ico me.startNs me.endNs ∩ cover (others.map DeviceLaunch.interval)

theorem mem_overlapOf {me : DeviceLaunch} {others : List DeviceLaunch} {x : Nat} :
    x ∈ overlapOf me others ↔ (me.startNs ≤ x ∧ x < me.endNs) ∧
      ∃ other ∈ others, other.startNs ≤ x ∧ x < other.endNs := by
  simp [overlapOf, DeviceLaunch.interval]

theorem intervalUnionNs_clip (me : DeviceLaunch) (others : List DeviceLaunch) :
    intervalUnionNs (others.map fun other => clip me.startNs me.endNs other.interval) =
      (overlapOf me others).card := by
  have hmap : (others.map fun other => clip me.startNs me.endNs other.interval) =
      (others.map DeviceLaunch.interval).map (clip me.startNs me.endNs) := by
    rw [List.map_map]
    rfl
  rw [intervalUnionNs_eq, hmap, cover_clip, overlapOf, Finset.inter_comm]

section overlap

variable {me : DeviceLaunch} {launches others : List DeviceLaunch}

/-- What one launch is paired with, of a device's launches. -/
structure Paired (launches : List DeviceLaunch) (me : DeviceLaunch) (others : List DeviceLaunch) :
    Prop where
  mem : ∀ other ∈ others, other ∈ launches.erase me
  complete : ∀ other ∈ launches.erase me, ∀ x, me.startNs ≤ x → x < me.endNs →
    other.startNs ≤ x → x < other.endNs → other ∈ others
  overlaps : ∀ other ∈ others, (overlapOf me [other]).Nonempty

theorem cover_overlapping (h : Paired launches me others) (p : DeviceLaunch → Bool) :
    overlapOf me (others.filter p) = overlapOf me ((launches.erase me).filter p) := by
  ext x
  simp only [mem_overlapOf, List.mem_filter]
  constructor
  · rintro ⟨hx, other, ⟨hother, hp⟩, hin⟩
    exact ⟨hx, other, ⟨h.mem other hother, hp⟩, hin⟩
  · rintro ⟨hx, other, ⟨hother, hp⟩, hin⟩
    exact ⟨hx, other, ⟨h.complete other hother x hx.1 hx.2 hin.1 hin.2, hp⟩, hin⟩

theorem paired_of_mem (hpositive : ∀ launch ∈ launches, launch.startNs < launch.endNs)
    (hnodup : launches.Nodup)
    (h : (me, others) ∈ overlapPairs [] (launches.insertionSort fun a b => a.key ≤ b.key)) :
    Paired launches me others := by
  have hsorted : (launches.insertionSort fun a b => a.key ≤ b.key).Pairwise
      fun a b => a.startNs ≤ b.startNs := by
    refine (List.pairwise_insertionSort (fun a b : DeviceLaunch => a.key ≤ b.key) _).imp ?_
    intro a b hab
    exact Prod.Lex.monotone_fst _ _ hab
  have hperm : (launches.insertionSort fun a b => a.key ≤ b.key).Perm launches :=
    List.perm_insertionSort _ _
  obtain ⟨before, after, hsplit, hothers⟩ := mem_overlapPairs hsorted h
  rw [hsplit] at hsorted hperm
  have hme : me ∈ launches := hperm.mem_iff.mp (by simp)
  have hnodup' := hperm.nodup_iff.mpr hnodup
  rw [List.nodup_middle, List.nodup_cons] at hnodup'
  have herase : ∀ other, other ∈ launches.erase me ↔ other ∈ before ∨ other ∈ after := by
    intro other
    rw [hnodup.mem_erase_iff, ← hperm.mem_iff, List.mem_append, List.mem_cons]
    constructor
    · rintro ⟨hne, hin | rfl | hin⟩
      · exact .inl hin
      · exact absurd rfl hne
      · exact .inr hin
    · intro hin
      refine ⟨?_, hin.imp id .inr⟩
      rintro rfl
      exact hnodup'.1 (List.mem_append.mpr hin)
  rw [List.pairwise_append, List.pairwise_cons] at hsorted
  obtain ⟨-, ⟨hafter, -⟩, hbefore⟩ := hsorted
  have hstart : ∀ other ∈ before, other.startNs ≤ me.startNs :=
    fun other hin => hbefore other hin me List.mem_cons_self
  have hmepos := hpositive me hme
  refine ⟨fun other hin => ?_, fun other hin x hlo hhi hstartx hendx => ?_, fun other hin => ?_⟩
  · rw [hothers, List.nil_append] at hin
    rw [herase]
    exact hin.imp And.left And.left
  · rw [hothers, List.nil_append]
    rcases (herase other).mp hin with hin | hin
    · have hle := hstart other hin
      exact .inl ⟨hin, by omega⟩
    · exact .inr ⟨hin, by omega⟩
  · rw [hothers, List.nil_append] at hin
    rcases hin with ⟨hin, hend⟩ | ⟨hin, hend⟩
    · -- an earlier launch covers where `me` starts
      have hle := hstart other hin
      exact ⟨me.startNs, mem_overlapOf.mpr ⟨⟨Nat.le_refl _, hmepos⟩, other,
        List.mem_singleton_self _, hle, hend⟩⟩
    · -- a later one starts inside `me`
      have hle := hafter other hin
      have hpos : other.startNs < other.endNs := hpositive other (hperm.mem_iff.mp (by simp [hin]))
      exact ⟨other.startNs, mem_overlapOf.mpr ⟨⟨hle, hend⟩, other,
        List.mem_singleton_self _, Nat.le_refl _, hpos⟩⟩

end overlap

/-! ## Writes -/

section writes

variable {α : Type} {out : List (List α)} {place : Nat × Nat} {value : α}

/-- The entry at a place. -/
def entryAt (out : List (List α)) (place : Nat × Nat) : Option α :=
  out[place.1]?.bind fun row => row[place.2]?

theorem entryAt_writeAt_self (h : entryAt out place = some value) (written : α) :
    entryAt (writeAt out (place, written)) place = some written := by
  obtain ⟨row, hrow, hvalue⟩ := Option.bind_eq_some_iff.mp h
  have hlt : place.2 < row.length := (List.getElem?_eq_some_iff.mp hvalue).1
  simp [entryAt, writeAt, hrow, hlt]

theorem entryAt_writeAt_of_ne {write : (Nat × Nat) × α} (hne : write.1 ≠ place) :
    entryAt (writeAt out write) place = entryAt out place := by
  unfold entryAt writeAt
  by_cases hrow : write.1.1 = place.1
  · rw [hrow, List.getElem?_modify_eq]
    have hindex : write.1.2 ≠ place.2 := fun heq => hne (Prod.ext hrow heq)
    cases out[place.1]? with
    | none => rfl
    | some row =>
      rw [Option.map_eq_map, Option.map_some, Option.bind_some, Option.bind_some,
        List.getElem?_set_ne hindex]
  · rw [List.getElem?_modify_ne _ _ hrow]

theorem entryAt_foldl (h : entryAt out place = some value) (writes : List ((Nat × Nat) × α)) :
    ∃ final, entryAt (writes.foldl writeAt out) place = some final ∧
      ((∀ write ∈ writes, write.1 ≠ place) ∧ final = value ∨
        ∃ write ∈ writes, write.1 = place ∧ write.2 = final) := by
  induction writes using List.reverseRecOn with
  | nil => exact ⟨value, h, .inl ⟨fun _ hmem => (List.not_mem_nil hmem).elim, rfl⟩⟩
  | append_singleton writes write ih =>
    obtain ⟨final, hfinal, hcase⟩ := ih
    rw [List.foldl_append, List.foldl_cons, List.foldl_nil]
    by_cases hplace : write.1 = place
    · subst hplace
      exact ⟨write.2, entryAt_writeAt_self hfinal write.2, .inr ⟨write, by simp, rfl, rfl⟩⟩
    · refine ⟨final, (entryAt_writeAt_of_ne hplace).trans hfinal, ?_⟩
      rcases hcase with ⟨hnone, rfl⟩ | ⟨earlier, hmem, heq⟩
      · refine .inl ⟨fun other hmem => ?_, rfl⟩
        rcases List.mem_append.mp hmem with hmem | hmem
        · exact hnone other hmem
        · rw [List.mem_singleton.mp hmem]
          exact hplace
      · exact .inr ⟨earlier, List.mem_append_left _ hmem, heq⟩

end writes

/-! ## Completeness -/

/-- The other launches of positive length on the device of a launch. -/
def otherLaunches (m : IterationMeasurement) (place : Nat × Nat) (launch : KernelLaunch) :
    List ((Nat × Nat) × KernelLaunch) :=
  m.placed.filter fun other =>
    other.1 ≠ place ∧ other.2.deviceId = launch.deviceId ∧ other.2.startNs < other.2.endNs

/-- The instants of a launch that some of the given ones cover. -/
def overlapWith (launch : KernelLaunch) (others : List ((Nat × Nat) × KernelLaunch)) : Finset Nat :=
  Finset.Ico launch.startNs launch.endNs ∩ cover (others.map fun other => other.2.interval)

/-- What is reported of a launch is the size of what it names: its overlap with all the others
on its device, with those on its stream and on other streams, and with the launches of each
position that overlaps it at all. -/
structure OverlapExact (m : IterationMeasurement) (place : Nat × Nat) (launch : KernelLaunch)
    (overlap : LaunchOverlap) : Prop where
  all : overlap.overlapNs = (overlapWith launch (otherLaunches m place launch)).card
  sameStream : overlap.sameStreamNs = (overlapWith launch ((otherLaunches m place launch).filter
    fun other => streamKey other.2 = streamKey launch)).card
  crossStream : overlap.crossStreamNs = (overlapWith launch ((otherLaunches m place launch).filter
    fun other => streamKey other.2 ≠ streamKey launch)).card
  partners : ∀ position ns, (position, ns) ∈ overlap.partners ↔
    ns = (overlapWith launch ((otherLaunches m place launch).filter
      fun other => other.1.1 = position)).card ∧ 0 < ns
  ascending : (overlap.partners.map Prod.fst).Pairwise (· < ·)

section complete

variable {m : IterationMeasurement} {place : Nat × Nat} {launch : KernelLaunch}

/-- The launches of one device. -/
def launchesOn (m : IterationMeasurement) (device : Int) : List DeviceLaunch :=
  ((deviceLaunches m).filter fun e => e.1 = device).map Prod.snd

theorem mem_deviceLaunches {device : Int} {other : DeviceLaunch} :
    (device, other) ∈ deviceLaunches m ↔ ∃ place launch, (place, launch) ∈ m.placed ∧
      launch.startNs < launch.endNs ∧ launch.deviceId = device ∧
      launch.deviceLaunch place.1 place.2 = other := by
  simp only [deviceLaunches, List.mem_filterMap]
  constructor
  · rintro ⟨e, he, hsome⟩
    split at hsome
    · next hpositive =>
      obtain ⟨rfl, rfl⟩ := Prod.mk.inj (Option.some.inj hsome)
      exact ⟨e.1, e.2, he, hpositive, rfl, rfl⟩
    · cases hsome
  · rintro ⟨place, launch, hplaced, hpositive, rfl, rfl⟩
    exact ⟨(place, launch), hplaced, if_pos hpositive⟩

theorem mem_launchesOn {device : Int} {other : DeviceLaunch} :
    other ∈ launchesOn m device ↔ (device, other) ∈ deviceLaunches m := by
  simp only [launchesOn, List.mem_map, List.mem_filter, decide_eq_true_eq]
  constructor
  · rintro ⟨e, ⟨he, rfl⟩, rfl⟩
    exact he
  · exact fun h => ⟨_, ⟨h, rfl⟩, rfl⟩

theorem placed_inj {launch' : KernelLaunch} (h : (place, launch) ∈ m.placed)
    (h' : (place, launch') ∈ m.placed) : launch = launch' :=
  congrArg Prod.snd (List.inj_on_of_nodup_map m.nodup_places h h' rfl)

theorem nodup_launchesOn (device : Int) : (launchesOn m device).Nodup := by
  have hplaces : ((deviceLaunches m).map fun e => e.2.place).Nodup := by
    have hsublist :
        ((deviceLaunches m).map fun e => e.2.place).Sublist (m.placed.map Prod.fst) := by
      rw [deviceLaunches]
      induction m.placed with
      | nil => exact List.Sublist.slnil
      | cons e placed ih =>
        rw [List.filterMap_cons]
        split
        · exact ih.trans (List.sublist_cons_self _ _)
        · next hsome =>
          split at hsome
          · obtain rfl := Option.some.inj hsome
            exact ih.cons_cons _
          · cases hsome
    exact m.nodup_places.sublist hsublist
  have hmap : ((launchesOn m device).map DeviceLaunch.place).Nodup := by
    rw [launchesOn, List.map_map]
    exact hplaces.sublist (List.filter_sublist.map _)
  exact hmap.of_map _

theorem overlapOf_erase (hplaced : (place, launch) ∈ m.placed)
    (p : DeviceLaunch → Bool) :
    overlapOf (launch.deviceLaunch place.1 place.2)
        (((launchesOn m launch.deviceId).erase (launch.deviceLaunch place.1 place.2)).filter p) =
      overlapWith launch ((otherLaunches m place launch).filter fun other =>
        p (other.2.deviceLaunch other.1.1 other.1.2)) := by
  ext x
  simp only [mem_overlapOf, overlapWith, otherLaunches, Finset.mem_inter, Finset.mem_Ico,
    mem_cover, List.mem_map, List.mem_filter, (nodup_launchesOn _).mem_erase_iff, mem_launchesOn,
    mem_deviceLaunches]
  constructor
  · rintro ⟨hx, other, ⟨⟨hne, place', launch', hplaced', hpositive, hdevice, rfl⟩, hp⟩, hin⟩
    refine ⟨hx, _, ⟨(place', launch'), ⟨⟨hplaced', ?_⟩, hp⟩, rfl⟩, hin⟩
    refine decide_eq_true ⟨?_, hdevice, hpositive⟩
    rintro rfl
    obtain rfl := placed_inj hplaced' hplaced
    exact hne rfl
  · rintro ⟨hx, _, ⟨other, ⟨⟨hplaced', hother⟩, hp⟩, rfl⟩, hin⟩
    obtain ⟨hne, hdevice, hpositive⟩ := of_decide_eq_true hother
    refine ⟨hx, _, ⟨⟨fun heq => hne ?_, other.1, other.2, hplaced', hpositive, hdevice, rfl⟩, hp⟩,
      hin⟩
    exact congrArg DeviceLaunch.place heq

theorem overlapExact_of_paired (hplaced : (place, launch) ∈ m.placed) {others : List DeviceLaunch}
    (h : Paired (launchesOn m launch.deviceId) (launch.deviceLaunch place.1 place.2) others) :
    OverlapExact m place launch (launchOverlap (launch.deviceLaunch place.1 place.2) others) := by
  set me := launch.deviceLaunch place.1 place.2 with hme
  -- whatever the others are filtered by, what they cover of the launch is what is named
  have hcard : ∀ p : DeviceLaunch → Bool,
      intervalUnionNs ((others.filter p).map fun other => clip me.startNs me.endNs other.interval) =
        (overlapWith launch ((otherLaunches m place launch).filter fun other =>
          p (other.2.deviceLaunch other.1.1 other.1.2))).card := by
    intro p
    rw [intervalUnionNs_clip, cover_overlapping h p, overlapOf_erase hplaced p]
  refine ⟨?_, ?_, ?_, fun position ns => ?_, ?_⟩
  · have hall := hcard fun _ => true
    rw [List.filter_true, List.filter_true] at hall
    exact hall
  · exact hcard fun other => other.stream = me.stream
  · exact hcard fun other => other.stream ≠ me.stream
  · have hposition := hcard fun other => other.position = position
    change _ = (overlapWith launch ((otherLaunches m place launch).filter
      fun other => other.1.1 = position)).card at hposition
    simp only [launchOverlap, List.mem_map]
    rw [← hposition]
    constructor
    · rintro ⟨g, hg, heq⟩
      obtain ⟨rfl, rfl⟩ := Prod.mk.inj heq
      obtain ⟨hkey, hfilter⟩ := Grouped.mem_group hg
      refine ⟨congrArg (fun launches : List DeviceLaunch => intervalUnionNs
        (launches.map fun other => clip me.startNs me.endNs other.interval)) hfilter, ?_⟩
      -- the position has a launch, and it overlaps
      obtain ⟨other, hother, hpos⟩ := Grouped.mem_keys.mp hkey
      obtain ⟨x, hx⟩ := h.overlaps other hother
      rw [intervalUnionNs_clip, Finset.card_pos]
      refine ⟨x, mem_overlapOf.mpr ⟨(mem_overlapOf.mp hx).1, ?_⟩⟩
      obtain ⟨-, single, hsingle, hin⟩ := mem_overlapOf.mp hx
      obtain rfl := List.mem_singleton.mp hsingle
      exact ⟨single, hfilter ▸ List.mem_filter.mpr ⟨hother, decide_eq_true hpos⟩, hin⟩
    · rintro ⟨rfl, hpositive⟩
      rw [intervalUnionNs_clip, Finset.card_pos] at hpositive
      obtain ⟨x, hx⟩ := hpositive
      obtain ⟨-, other, hother, -⟩ := mem_overlapOf.mp hx
      obtain ⟨hmem, hpos⟩ := List.mem_filter.mp hother
      have hkey : position ∈ Grouped.keys DeviceLaunch.position others :=
        Grouped.mem_keys.mpr ⟨other, hmem, of_decide_eq_true hpos⟩
      exact ⟨_, List.mem_map.mpr ⟨position, hkey, rfl⟩, rfl⟩
  · have hkeys : ((launchOverlap me others).partners.map Prod.fst) =
        Grouped.keys DeviceLaunch.position others := by
      rw [← Grouped.group_keys, launchOverlap, List.map_map]
      rfl
    rw [hkeys]
    exact Grouped.keys_ascending _

theorem overlapWrite_spec {write : (Nat × Nat) × LaunchOverlap}
    (h : write ∈ (Grouped.group Prod.fst (deviceLaunches m)).flatMap fun g =>
      deviceOverlaps (g.2.map Prod.snd)) :
    ∃ place launch others, (place, launch) ∈ m.placed ∧ launch.startNs < launch.endNs ∧
      (launch.deviceLaunch place.1 place.2, others) ∈
        overlapPairs [] ((launchesOn m launch.deviceId).insertionSort fun a b => a.key ≤ b.key) ∧
      write = (place, launchOverlap (launch.deviceLaunch place.1 place.2) others) := by
  obtain ⟨g, hg, hwrite⟩ := List.mem_flatMap.mp h
  have hlaunches : g.2.map Prod.snd = launchesOn m g.1 := by
    rw [(Grouped.mem_group hg).2]
    rfl
  rw [hlaunches] at hwrite
  obtain ⟨pair, hpair, hsome⟩ := List.mem_filterMap.mp hwrite
  split at hsome
  · cases hsome
  · have hwrite := (Option.some.inj hsome).symm
    have hmem : pair.1 ∈ launchesOn m g.1 := by
      have hfst := List.mem_map_of_mem (f := Prod.fst) hpair
      rw [overlapPairs_fst, List.mem_insertionSort] at hfst
      exact hfst
    obtain ⟨place, launch, hplaced, hpositive, hdevice, heq⟩ :=
      mem_deviceLaunches.mp (mem_launchesOn.mp hmem)
    refine ⟨place, launch, pair.2, hplaced, hpositive, ?_, ?_⟩
    · rw [hdevice, heq]
      exact hpair
    · rw [hwrite, heq, ← heq]
      rfl

theorem exists_overlapWrite (hplaced : (place, launch) ∈ m.placed)
    (hpositive : launch.startNs < launch.endNs) {others : List DeviceLaunch}
    (hpair : (launch.deviceLaunch place.1 place.2, others) ∈
      overlapPairs [] ((launchesOn m launch.deviceId).insertionSort fun a b => a.key ≤ b.key))
    (hothers : others ≠ []) :
    ∃ write ∈ (Grouped.group Prod.fst (deviceLaunches m)).flatMap fun g =>
      deviceOverlaps (g.2.map Prod.snd), write.1 = place := by
  have hdevice : (launch.deviceId, launch.deviceLaunch place.1 place.2) ∈ deviceLaunches m :=
    mem_deviceLaunches.mpr ⟨place, launch, hplaced, hpositive, rfl, rfl⟩
  have hkey : launch.deviceId ∈ Grouped.keys Prod.fst (deviceLaunches m) :=
    Grouped.mem_keys.mpr ⟨_, hdevice, rfl⟩
  refine ⟨(place, launchOverlap (launch.deviceLaunch place.1 place.2) others), ?_, rfl⟩
  refine List.mem_flatMap.mpr ⟨_, List.mem_map.mpr ⟨_, hkey, rfl⟩, ?_⟩
  refine List.mem_filterMap.mpr ⟨_, hpair, ?_⟩
  have hsome : others.isEmpty = false := by simpa using hothers
  rw [hsome]
  rfl

/-- Launch overlaps are complete: every launch of positive length is reported with the exact
measure of its overlaps. -/
theorem launch_overlaps_complete (hplaced : (place, launch) ∈ m.placed)
    (hpositive : launch.startNs < launch.endNs) :
    ∃ overlap, entryAt (launchOverlaps m) place = some overlap ∧
      OverlapExact m place launch overlap := by
  set me := launch.deviceLaunch place.1 place.2 with hme
  have hpaired : ∀ {others}, (me, others) ∈
      overlapPairs [] ((launchesOn m launch.deviceId).insertionSort fun a b => a.key ≤ b.key) →
      Paired (launchesOn m launch.deviceId) me others := by
    intro others hpair
    refine paired_of_mem (fun other hother => ?_) (nodup_launchesOn _) hpair
    obtain ⟨_, other', -, hpositive', -, rfl⟩ := mem_deviceLaunches.mp (mem_launchesOn.mp hother)
    exact hpositive'
  -- the launch is among its device's, so it is paired with some
  obtain ⟨others, hpair⟩ : ∃ others, (me, others) ∈
      overlapPairs [] ((launchesOn m launch.deviceId).insertionSort fun a b => a.key ≤ b.key) := by
    have hmem : me ∈ launchesOn m launch.deviceId :=
      mem_launchesOn.mpr (mem_deviceLaunches.mpr ⟨place, launch, hplaced, hpositive, rfl, rfl⟩)
    rw [← List.mem_insertionSort (r := fun a b : DeviceLaunch => a.key ≤ b.key),
      ← overlapPairs_fst [] ((launchesOn m launch.deviceId).insertionSort fun a b => a.key ≤ b.key)]
      at hmem
    obtain ⟨pair, hpair, hfst⟩ := List.mem_map.mp hmem
    exact ⟨pair.2, hfst ▸ hpair⟩
  have hinitial : entryAt (m.kernels.map fun kernel => kernel.launches.map
      fun _ => ({} : LaunchOverlap)) place = some {} := by
    obtain ⟨kernel, hkernel, hlaunch⟩ := IterationMeasurement.mem_placed.mp hplaced
    have hlt := (List.getElem?_eq_some_iff.mp hlaunch).1
    simp [entryAt, hkernel, hlt]
  obtain ⟨overlap, hoverlap, hcase⟩ := entryAt_foldl hinitial
    ((Grouped.group Prod.fst (deviceLaunches m)).flatMap fun g =>
      deviceOverlaps (g.2.map Prod.snd))
  refine ⟨overlap, hoverlap, ?_⟩
  rcases hcase with ⟨hnone, rfl⟩ | ⟨write, hwrite, hplace, rfl⟩
  · -- nothing written: nothing overlaps
    have hnil : others = [] := by
      by_contra hothers
      obtain ⟨write, hwrite, hplace⟩ := exists_overlapWrite hplaced hpositive hpair hothers
      exact hnone write hwrite hplace
    subst hnil
    exact overlapExact_of_paired hplaced (hpaired hpair)
  · obtain ⟨place', launch', others', hplaced', -, hpair', rfl⟩ := overlapWrite_spec hwrite
    obtain rfl : place' = place := hplace
    obtain rfl := placed_inj hplaced' hplaced
    exact overlapExact_of_paired hplaced (hpaired hpair')

end complete

/-- A launch that two launches of one collective and a touching successor share a device with. -/
def collectiveBehind : IterationMeasurement where
  kernels := [⟨some "attention", false, [⟨0, 0, 10, 0, some 1⟩]⟩,
    ⟨some "reduce", true, [⟨0, 4, 6, 1, some 2⟩, ⟨0, 8, 12, 1, some 2⟩]⟩,
    ⟨some "ffn", false, [⟨0, 10, 14, 0, some 1⟩, ⟨1, 0, 5, 0, some 1⟩]⟩]
  deviceIds := {0, 1}

theorem launch_overlaps_complete_collective :
    entryAt (launchOverlaps collectiveBehind) (0, 0) = some ⟨4, 0, 4, [(1, 4)]⟩ ∧
      ∃ overlap, entryAt (launchOverlaps collectiveBehind) (0, 0) = some overlap ∧
        OverlapExact collectiveBehind (0, 0) ⟨0, 0, 10, 0, some 1⟩ overlap :=
  ⟨by decide +kernel, launch_overlaps_complete (by decide +kernel) (by decide)⟩

end ServingSim
