import Mathlib.Data.List.TakeWhile
import ServingSim.Analyzer.BarrierPath

/-
  Sweeping a rank's launches in a window, and trimming their starts.

  A rank's launches in a window are swept once, by their starts, with the launch of the
  furthest end so far as the only one that is remembered. That one covers whatever the
  earlier launches have of the next, since it started before it and ends behind them all.
-/

namespace ServingSim

open IntervalUnion

/-! ## The sweep -/

/-- An overlapped stretch of a swept launch: its length, and the launch it is charged to. -/
structure Charge where
  launch : RankLaunch
  chargedTo : RankLaunch
  hiddenNs : Nat

namespace Charge

/-- Both launches are on one stream. -/
def SameStream (charge : Charge) : Prop := charge.chargedTo.stream = charge.launch.stream

instance (charge : Charge) : Decidable charge.SameStream :=
  inferInstanceAs (Decidable (_ = _))

/-- What the earlier launches of a sweep have of this one is as long as the charge says, and
the launch charged, one of them, covers all of it. -/
structure Covered (earlier : List RankLaunch) (charge : Charge) : Prop where
  mem : charge.chargedTo ∈ earlier
  length : (cover (earlier.map RankLaunch.interval) ∩
    Finset.Ico charge.launch.startNs charge.launch.endNs).card = charge.hiddenNs
  covers : cover (earlier.map RankLaunch.interval) ∩
    Finset.Ico charge.launch.startNs charge.launch.endNs ⊆
      Finset.Ico charge.chargedTo.startNs charge.chargedTo.endNs

end Charge

/-- The charges of a sweep: one for each launch but the first. -/
structure Charged (swept : List RankLaunch) (out : Attribution) (charges : List Charge) : Prop where
  launches : charges.map Charge.launch = swept.tail
  covered : ∀ charge ∈ charges, ∃ earlier later, swept = earlier ++ charge.launch :: later ∧
    charge.Covered earlier
  sameStream : out.hiddenSameStreamNs =
    ((charges.filter fun charge => charge.SameStream).map Charge.hiddenNs).sum
  crossStream : out.hiddenCrossStreamNs =
    ((charges.filter fun charge => ¬charge.SameStream).map Charge.hiddenNs).sum

/-- What a sweep has made of the launches behind it. -/
structure Swept (swept : List RankLaunch) (out : Attribution) : Prop where
  union : out.unionNs = (cover (swept.map RankLaunch.interval)).card
  slices : (out.slices.map Prod.snd).sum = out.unionNs
  clipped : out.clipped = swept.map fun launch => (launch.position, launch.endNs - launch.startNs)
  hidden : (out.clipped.map Prod.snd).sum =
    out.unionNs + out.hiddenSameStreamNs + out.hiddenCrossStreamNs
  sliced : ∀ slice ∈ out.slices, ∃ launch ∈ swept, launch.position = slice.1
  first : out.firstNs = swept.head?.map RankLaunch.startNs
  last : out.lastNs = swept.head?.map fun _ => reach (swept.map RankLaunch.interval)
  charged : ∃ charges, Charged swept out charges

/-- The launch a sweep remembers: one with the furthest end. -/
def Furthest (swept : List RankLaunch) (cover : Option RankLaunch) : Prop :=
  swept = [] ∧ cover = none ∨ ∃ launch ∈ swept, cover = some launch ∧
    launch.endNs = reach (swept.map RankLaunch.interval)

theorem reach_concat (swept : List RankLaunch) (launch : RankLaunch) :
    reach ((swept ++ [launch]).map RankLaunch.interval) =
      max (reach (swept.map RankLaunch.interval)) launch.endNs := by
  rw [List.map_append, reach_append]
  simp [RankLaunch.interval]

theorem Furthest.step {swept : List RankLaunch} {cover : Option RankLaunch}
    (h : Furthest swept cover) (launch : RankLaunch) :
    Furthest (swept ++ [launch])
      (if cover.elim true fun cover => launch.endNs > cover.endNs then some launch else cover) := by
  refine .inr ?_
  rw [reach_concat]
  rcases h with ⟨rfl, rfl⟩ | ⟨furthest, hmem, rfl, hfurthest⟩
  · exact ⟨launch, List.mem_cons_self, rfl, by simp⟩
  · rw [← hfurthest]
    by_cases hlt : launch.endNs > furthest.endNs
    · exact ⟨launch, List.mem_append_right _ List.mem_cons_self, by simp [hlt], by omega⟩
    · exact ⟨furthest, List.mem_append_left _ hmem, by simp [hlt], by omega⟩

section step

variable {swept : List RankLaunch} {out : Attribution} {launch : RankLaunch}

theorem starts_le (hstart : ∀ other ∈ swept, other.startNs ≤ launch.startNs) :
    ∀ interval ∈ swept.map RankLaunch.interval, interval.1 ≤ launch.interval.1 := by
  intro interval hmem
  obtain ⟨other, hother, rfl⟩ := List.mem_map.mp hmem
  exact hstart other hother

theorem cover_concat_card (hstart : ∀ other ∈ swept, other.startNs ≤ launch.startNs) :
    (cover ((swept ++ [launch]).map RankLaunch.interval)).card =
      (cover (swept.map RankLaunch.interval)).card +
        (launch.endNs - max (reach (swept.map RankLaunch.interval)) launch.startNs) := by
  rw [List.map_append]
  exact card_cover_concat (starts_le hstart)

theorem covered_of_furthest {furthest : RankLaunch} (hmem : furthest ∈ swept)
    (hreach : furthest.endNs = reach (swept.map RankLaunch.interval))
    (hstart : ∀ other ∈ swept, other.startNs ≤ launch.startNs) :
    Charge.Covered swept ⟨launch, furthest,
      launch.endNs - launch.startNs - (launch.endNs - max furthest.endNs launch.startNs)⟩ := by
  have hoverlap : cover (swept.map RankLaunch.interval) ∩
      Finset.Ico launch.startNs launch.endNs =
        Finset.Ico launch.startNs (min furthest.endNs launch.endNs) := by
    rw [hreach]
    exact cover_inter_Ico launch.interval (starts_le hstart)
  refine ⟨hmem, ?_, ?_⟩
  · show (_ ∩ Finset.Ico launch.startNs launch.endNs).card = _
    rw [hoverlap, Nat.card_Ico]
    show _ = launch.endNs - launch.startNs - (launch.endNs - max furthest.endNs launch.startNs)
    omega
  · show _ ∩ Finset.Ico launch.startNs launch.endNs ⊆ _
    rw [hoverlap]
    exact Finset.Ico_subset_Ico (hstart furthest hmem) (Nat.min_le_left _ _)

theorem Charged.concat {charges : List Charge} {charge : Charge} {out' : Attribution}
    (h : Charged swept out charges) (hne : swept ≠ []) (hlaunch : charge.launch = launch)
    (hcovered : charge.Covered swept)
    (hsame : out'.hiddenSameStreamNs =
      out.hiddenSameStreamNs + if charge.SameStream then charge.hiddenNs else 0)
    (hcross : out'.hiddenCrossStreamNs =
      out.hiddenCrossStreamNs + if charge.SameStream then 0 else charge.hiddenNs) :
    Charged (swept ++ [launch]) out' (charges ++ [charge]) where
  launches := by
    rw [List.map_append, h.launches, List.tail_append_of_ne_nil hne, ← hlaunch]
    rfl
  covered := by
    intro other hmem
    rcases List.mem_append.mp hmem with hmem | hmem
    · obtain ⟨earlier, later, heq, hcov⟩ := h.covered other hmem
      exact ⟨earlier, later ++ [launch], by rw [heq, List.append_assoc]; rfl, hcov⟩
    · rw [List.mem_singleton.mp hmem]
      exact ⟨swept, [], by rw [hlaunch], hcovered⟩
  sameStream := by
    rw [hsame, h.sameStream]
    by_cases hs : charge.SameStream <;> simp [List.filter_append, hs]
  crossStream := by
    rw [hcross, h.crossStream]
    by_cases hs : charge.SameStream <;> simp [List.filter_append, hs]

theorem attributeStep_spec {furthest : Option RankLaunch} (h : Swept swept out)
    (hfurthest : Furthest swept furthest) (hforward : launch.startNs ≤ launch.endNs)
    (hstart : ∀ other ∈ swept, other.startNs ≤ launch.startNs) :
    ∃ state, attributeStep (out, furthest) launch = .ok state ∧
      Swept (swept ++ [launch]) state.1 ∧ Furthest (swept ++ [launch]) state.2 := by
  have hnext := hfurthest.step launch
  have hunion := cover_concat_card hstart
  have hreach := reach_concat swept launch
  have hclipped : ((swept ++ [launch]).map fun launch : RankLaunch =>
      (launch.position, launch.endNs - launch.startNs)) =
        out.clipped ++ [(launch.position, launch.endNs - launch.startNs)] := by
    rw [List.map_append, h.clipped]
    rfl
  have hslices : ∀ exclusiveNs, ((if exclusiveNs > 0 then out.slices ++ [(launch.position,
      exclusiveNs)] else out.slices).map Prod.snd).sum = out.unionNs + exclusiveNs := by
    intro exclusiveNs
    split
    · simp [h.slices]
    · rw [h.slices]
      omega
  have hsliced : ∀ exclusiveNs, ∀ slice ∈ (if exclusiveNs > 0 then out.slices ++
      [(launch.position, exclusiveNs)] else out.slices),
        ∃ other ∈ swept ++ [launch], other.position = slice.1 := by
    intro exclusiveNs slice hmem
    have hmem' : slice ∈ out.slices ∨ slice = (launch.position, exclusiveNs) := by
      split at hmem
      · simpa using hmem
      · exact .inl hmem
    rcases hmem' with hmem' | rfl
    · obtain ⟨other, hother, hposition⟩ := h.sliced slice hmem'
      exact ⟨other, List.mem_append_left _ hother, hposition⟩
    · exact ⟨launch, List.mem_append_right _ List.mem_cons_self, rfl⟩
  have hhidden := h.hidden
  rcases hfurthest with ⟨rfl, rfl⟩ | ⟨behind, hmem, rfl, hbehind⟩
  · -- nothing is swept yet, nothing is hidden
    refine ⟨_, bind_eq_ok_iff.mpr ⟨_, checkedSub_of_le hforward, bind_eq_ok_iff.mpr
      ⟨_, checkedSub_of_le (Nat.le_refl _), rfl⟩⟩, ?_, hnext⟩
    obtain ⟨charges, hcharged⟩ := h.charged
    refine ⟨?_, hslices _, hclipped.symm, ?_, hsliced _, ?_, ?_, charges, ?_⟩
    · rw [hunion, h.union]
      simp
    · simp [hhidden]
      omega
    · simp [h.first]
    · simp [h.last, RankLaunch.interval]
    · obtain rfl : charges = [] := List.map_eq_nil_iff.mp hcharged.launches
      refine ⟨rfl, fun _ hmem => (List.not_mem_nil hmem).elim, ?_, ?_⟩
      · simpa using hcharged.sameStream
      · simpa using hcharged.crossStream
  · have hle : launch.endNs - max behind.endNs launch.startNs ≤ launch.endNs - launch.startNs := by
      omega
    refine ⟨_, bind_eq_ok_iff.mpr ⟨_, checkedSub_of_le hforward, bind_eq_ok_iff.mpr
      ⟨_, checkedSub_of_le hle, rfl⟩⟩, ?_, hnext⟩
    obtain ⟨charges, hcharged⟩ := h.charged
    have hne : swept ≠ [] := List.ne_nil_of_mem hmem
    obtain ⟨first, rest, rfl⟩ := List.exists_cons_of_ne_nil hne
    have hcovered := covered_of_furthest hmem hbehind hstart
    refine ⟨?_, hslices _, hclipped.symm, ?_, hsliced _, ?_, ?_, _,
      hcharged.concat hne rfl hcovered ?_ ?_⟩
    · rw [hunion, h.union, ← hbehind]
    · by_cases hs : behind.stream = launch.stream <;> simp [hhidden, hs] <;> omega
    · simp [h.first]
    · rw [h.last, hreach]
      rfl
    · by_cases hs : behind.stream = launch.stream <;> simp [Charge.SameStream, hs]
    · by_cases hs : behind.stream = launch.stream <;> simp [Charge.SameStream, hs]

end step

theorem Swept.nil : Swept [] {} where
  union := rfl
  slices := rfl
  clipped := rfl
  hidden := rfl
  sliced := fun _ hmem => (List.not_mem_nil hmem).elim
  first := rfl
  last := rfl
  charged := ⟨[], rfl, fun _ hmem => (List.not_mem_nil hmem).elim, rfl, rfl⟩

theorem sweep_spec {launches : List RankLaunch}
    (hforward : ∀ launch ∈ launches, launch.startNs ≤ launch.endNs)
    (hsorted : launches.Pairwise fun a b => a.startNs ≤ b.startNs) :
    ∃ state, launches.foldlM attributeStep ({}, none) = .ok state ∧
      Swept launches state.1 ∧ Furthest launches state.2 := by
  induction launches using List.reverseRecOn with
  | nil => exact ⟨({}, none), rfl, Swept.nil, .inl ⟨rfl, rfl⟩⟩
  | append_singleton launches launch ih =>
    rw [List.pairwise_append] at hsorted
    obtain ⟨state, hstate, hswept, hfurthest⟩ :=
      ih (fun other hmem => hforward other (List.mem_append_left _ hmem)) hsorted.1
    have hlast := List.mem_append_right launches (List.mem_singleton_self launch)
    obtain ⟨state', hstep, hswept'⟩ := attributeStep_spec hswept hfurthest (hforward launch hlast)
      fun other hmem => hsorted.2.2 other hmem launch List.mem_cons_self
    refine ⟨state', ?_, hswept'⟩
    rw [List.foldlM_append, hstate]
    simp only [List.foldlM_cons, List.foldlM_nil]
    exact bind_eq_ok_iff.mpr ⟨state, rfl, bind_eq_ok_iff.mpr ⟨state', hstep, rfl⟩⟩

/-! ## Windows -/

theorem sweepOrdered_sorted (launches : List RankLaunch) :
    (sweepOrdered launches).Pairwise fun a b => a.startNs ≤ b.startNs := by
  refine (List.pairwise_insertionSort (fun a b => sweepKey a ≤ sweepKey b) _).imp ?_
  intro a b hab
  exact Prod.Lex.monotone_fst _ _ hab

theorem mem_sweepOrdered {launches : List RankLaunch} {launch : RankLaunch} :
    launch ∈ sweepOrdered launches ↔ launch ∈ launches :=
  (List.perm_insertionSort _ _).mem_iff

theorem clipLaunch_eq_some {lo hi : Nat} {launch clipped : RankLaunch}
    (h : clipLaunch lo hi launch = some clipped) :
    max launch.startNs lo < min launch.endNs hi ∧
      clipped = { launch with startNs := max launch.startNs lo, endNs := min launch.endNs hi } := by
  simp only [clipLaunch] at h
  split at h
  · next hlt => exact ⟨hlt, (Option.some.inj h).symm⟩
  · cases h

theorem clipLaunch_eq_none {lo hi : Nat} {launch : RankLaunch}
    (h : launch.endNs ≤ lo ∨ hi < launch.startNs) : clipLaunch lo hi launch = none :=
  if_neg (by omega)

theorem cover_clipped (launches : List RankLaunch) (lo hi : Nat) :
    cover ((launches.filterMap (clipLaunch lo hi)).map RankLaunch.interval) =
      cover (launches.map RankLaunch.interval) ∩ Finset.Ico lo hi := by
  ext x
  simp only [mem_cover, List.mem_map, List.mem_filterMap, Finset.mem_inter, Finset.mem_Ico]
  constructor
  · rintro ⟨_, ⟨clipped, ⟨launch, hmem, hclip⟩, rfl⟩, hx⟩
    obtain ⟨-, rfl⟩ := clipLaunch_eq_some hclip
    simp only [RankLaunch.interval] at hx
    exact ⟨⟨_, ⟨launch, hmem, rfl⟩, by simp only [RankLaunch.interval]; omega⟩, by omega⟩
  · rintro ⟨⟨_, ⟨launch, hmem, rfl⟩, hx⟩, hwindow⟩
    simp only [RankLaunch.interval] at hx
    refine ⟨_, ⟨_, ⟨launch, hmem, if_pos (by omega)⟩, rfl⟩, ?_⟩
    simp only [RankLaunch.interval]
    omega

/-- The launches of a window, clipped, in sweep order. -/
def clippedTo (launches : List RankLaunch) (lo hi : Nat) : List RankLaunch :=
  sweepOrdered (launches.filterMap (clipLaunch lo hi))

theorem attributeWindow_spec (launches : List RankLaunch) (lo hi : Nat) :
    ∃ out, attributeWindow launches lo hi = .ok out ∧ Swept (clippedTo launches lo hi) out := by
  have hforward : ∀ launch ∈ clippedTo launches lo hi, launch.startNs ≤ launch.endNs := by
    intro launch hmem
    obtain ⟨source, -, hclip⟩ := List.mem_filterMap.mp (mem_sweepOrdered.mp hmem)
    obtain ⟨hlt, rfl⟩ := clipLaunch_eq_some hclip
    exact hlt.le
  obtain ⟨state, hstate, hswept, -⟩ := sweep_spec hforward (sweepOrdered_sorted _)
  exact ⟨state.1, bind_eq_ok_iff.mpr ⟨state, hstate, rfl⟩, hswept⟩

theorem lt_of_mem_dropWhile {α : Type} {f : α → Nat} {bound : Nat} {l : List α}
    (hsorted : l.Pairwise fun a b => f a ≤ f b) :
    ∀ a ∈ l.dropWhile fun a => f a ≤ bound, bound < f a := by
  induction l with
  | nil => exact fun a hmem => (List.not_mem_nil hmem).elim
  | cons first l ih =>
    rw [List.pairwise_cons] at hsorted
    intro a hmem
    by_cases hle : f first ≤ bound
    · rw [List.dropWhile_cons_of_pos (by simpa using hle)] at hmem
      exact ih hsorted.2 a hmem
    · rw [List.dropWhile_cons_of_neg (by simpa using hle)] at hmem
      rcases List.mem_cons.mp hmem with rfl | hmem
      · exact Nat.lt_of_not_le hle
      · exact (Nat.lt_of_not_le hle).trans_le (hsorted.1 a hmem)

theorem drop_takeWhile {α : Type} (p : α → Bool) (l : List α) :
    l.drop (l.takeWhile p).length = l.dropWhile p := by
  have hsplit : (l.takeWhile p ++ l.dropWhile p).drop (l.takeWhile p).length = l.dropWhile p :=
    List.drop_left
  rwa [List.takeWhile_append_dropWhile] at hsplit

theorem end_le_of_reach {lo : Nat} (launches : List RankLaunch) (furthest : Nat) :
    ∀ launch ∈ launches.take (((launches.scanl
      (fun furthest launch => max furthest launch.endNs) furthest).tail.takeWhile
        fun reach => reach ≤ lo).length), launch.endNs ≤ lo := by
  induction launches generalizing furthest with
  | nil => exact fun _ hmem => (List.not_mem_nil (List.mem_of_mem_take hmem)).elim
  | cons first launches ih =>
    intro launch hmem
    have hscan : ((first :: launches).scanl (fun furthest launch => max furthest launch.endNs)
        furthest).tail = max furthest first.endNs :: (launches.scanl
          (fun furthest launch => max furthest launch.endNs) (max furthest first.endNs)).tail := by
      cases launches <;> simp [List.scanl_cons]
    rw [hscan] at hmem
    by_cases hle : max furthest first.endNs ≤ lo
    · rw [List.takeWhile_cons_of_pos (by simpa using hle), List.length_cons,
        List.take_succ_cons] at hmem
      rcases List.mem_cons.mp hmem with rfl | hmem
      · exact (Nat.le_max_right _ _).trans hle
      · exact ih _ launch hmem
    · rw [List.takeWhile_cons_of_neg (by simpa using hle)] at hmem
      exact (List.not_mem_nil hmem).elim

theorem filterMap_drop_take {α β : Type} {f : α → Option β} {l : List α} {first last : Nat}
    (hfirst : ∀ a ∈ l.take first, f a = none) (hlast : ∀ a ∈ l.drop last, f a = none) :
    ((l.take (max last first)).drop first).filterMap f = l.filterMap f := by
  have hnil : ∀ {l' : List α}, (∀ a ∈ l', f a = none) → l'.filterMap f = [] :=
    fun h => List.filterMap_eq_nil_iff.mpr h
  have hbehind : (l.drop (max last first)).filterMap f = [] := by
    refine hnil fun a hmem => hlast a ?_
    have hsplit : l.drop (max last first) = (l.drop last).drop (max last first - last) := by
      rw [List.drop_drop]
      congr 1
      omega
    exact List.mem_of_mem_drop (hsplit ▸ hmem)
  have hbefore : ((l.take (max last first)).take first).filterMap f = [] := by
    rw [List.take_take, Nat.min_eq_left (Nat.le_max_right _ _)]
    exact hnil hfirst
  have hall : l.filterMap f = ((l.take (max last first)).take first).filterMap f ++
      ((l.take (max last first)).drop first).filterMap f ++
        (l.drop (max last first)).filterMap f := by
    rw [← List.filterMap_append, List.take_append_drop, ← List.filterMap_append,
      List.take_append_drop]
  rw [hall, hbefore, hbehind, List.nil_append, List.append_nil]

theorem window_clipped (launches : List RankLaunch) (lo hi : Nat) :
    clippedTo ((RankLaunches.new launches).window lo hi) lo hi =
      clippedTo (sweepOrdered launches) lo hi := by
  refine congrArg sweepOrdered (filterMap_drop_take (fun launch hmem => ?_) fun launch hmem => ?_)
  · exact clipLaunch_eq_none (.inl (end_le_of_reach _ 0 launch hmem))
  · have hmem : launch ∈ (sweepOrdered launches).drop ((sweepOrdered launches).takeWhile
      fun launch => launch.startNs ≤ hi).length := hmem
    rw [drop_takeWhile] at hmem
    exact clipLaunch_eq_none (.inr (lt_of_mem_dropWhile (sweepOrdered_sorted launches) launch hmem))

/-! ## Trimming -/

section trimming

variable {collectives : List (Nat × Nat)} {startNs : Nat}

theorem mem_started (hsorted : collectives.Pairwise fun a b => a.1 ≤ b.1)
    {collective : Nat × Nat} : collective ∈ collectives.takeWhile
      (fun collective => collective.1 ≤ startNs) ↔
        collective ∈ collectives ∧ collective.1 ≤ startNs := by
  constructor
  · intro hmem
    exact ⟨(List.takeWhile_sublist _).subset hmem, by simpa using List.mem_takeWhile_imp hmem⟩
  · rintro ⟨hmem, hle⟩
    rw [← List.takeWhile_append_dropWhile (l := collectives)
      (p := fun collective => decide (collective.1 ≤ startNs)), List.mem_append] at hmem
    rcases hmem with hmem | hmem
    · exact hmem
    · exact absurd (lt_of_mem_dropWhile hsorted collective hmem) (Nat.not_lt.mpr hle)

theorem later_ends_lt {endNs : Nat} (hmem : endNs ∈ collectives.map Prod.snd)
    (hlt : startNs < endNs) :
    (collectives.filter fun collective => endNs < collective.2).length <
      (collectives.filter fun collective => startNs < collective.2).length := by
  obtain ⟨collective, hcollective, rfl⟩ := List.mem_map.mp hmem
  have hfilter : (collectives.filter fun other => collective.2 < other.2) =
      (collectives.filter fun other => startNs < other.2).filter
        fun other => collective.2 < other.2 := by
    rw [List.filter_filter]
    refine List.filter_congr fun other _ => ?_
    rw [← Bool.decide_and]
    exact decide_eq_decide.mpr ⟨fun h => ⟨h, hlt.trans h⟩, And.left⟩
  rw [hfilter, List.length_filter_lt_length_iff_exists]
  exact ⟨collective, List.mem_filter.mpr ⟨hcollective, by simpa using hlt⟩, by simp⟩

theorem pdlTrimLoop_spec (hsorted : collectives.Pairwise fun a b => a.1 ≤ b.1)
    (turns startNs : Nat)
    (hturns : (collectives.filter fun collective => startNs < collective.2).length < turns) :
    ∃ free, pdlTrimLoop collectives turns startNs = some free ∧
      IsLeast {x | startNs ≤ x ∧ x ∉ cover collectives} free := by
  induction turns generalizing startNs with
  | zero => exact absurd hturns (Nat.not_lt_zero _)
  | succ turns ih =>
    simp only [pdlTrimLoop]
    cases hmax : ((collectives.takeWhile fun collective => collective.1 ≤ startNs).map
      Prod.snd).max? with
    | none =>
      -- no collective has started
      refine ⟨startNs, rfl, ⟨le_refl _, fun hcovered => ?_⟩, fun x hx => hx.1⟩
      obtain ⟨collective, hmem, hstart, -⟩ := mem_cover.mp hcovered
      have hstarted := (mem_started hsorted).mpr ⟨hmem, hstart⟩
      rw [List.max?_eq_none_iff, List.map_eq_nil_iff] at hmax
      exact (List.not_mem_nil (hmax ▸ hstarted)).elim
    | some endNs =>
      obtain ⟨hend, hlargest⟩ := List.max?_eq_some_iff.mp hmax
      obtain ⟨collective, hcollective, rfl⟩ := List.mem_map.mp hend
      obtain ⟨hmem, hstarted⟩ := (mem_started hsorted).mp hcollective
      by_cases hgt : collective.2 > startNs
      · -- everything up to this collective's end is inside it
        have hless := later_ends_lt (List.mem_map_of_mem hmem) hgt
        obtain ⟨free, hfree, ⟨hle, hout⟩, hleast⟩ := ih collective.2 (by omega)
        refine ⟨free, (if_pos hgt).trans hfree, ⟨hgt.le.trans hle, hout⟩, ?_⟩
        rintro x ⟨hx, hxout⟩
        refine hleast ⟨?_, hxout⟩
        by_contra hlt
        exact hxout (mem_cover.mpr ⟨collective, hmem, hstarted.trans hx, Nat.lt_of_not_le hlt⟩)
      · refine ⟨startNs, if_neg hgt, ⟨le_refl _, fun hcovered => ?_⟩, fun x hx => hx.1⟩
        obtain ⟨other, hother, hstart, hafter⟩ := mem_cover.mp hcovered
        have hle := hlargest other.2
          (List.mem_map_of_mem ((mem_started hsorted).mpr ⟨hother, hstart⟩))
        omega

theorem pdlTrimmedStart_spec (hsorted : collectives.Pairwise fun a b => a.1 ≤ b.1)
    (startNs : Nat) : ∃ free, pdlTrimmedStart collectives startNs = .ok free ∧
      IsLeast {x | startNs ≤ x ∧ x ∉ cover collectives} free := by
  obtain ⟨free, hfree, hleast⟩ := pdlTrimLoop_spec hsorted (collectives.length + 1)
    startNs (Nat.lt_succ_of_le (List.length_filter_le _ _))
  exact ⟨free, required_eq_ok_iff.mpr hfree, hleast⟩

end trimming

end ServingSim
