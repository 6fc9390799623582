import Mathlib.Data.List.TakeWhile
import ServingSim.Analyzer.PopulationBins

/-
  Request-state populations conserve requests.

  At every instant a request that has entered stage tracking is at one place, that of its
  last transition, and its deltas add one there and nothing anywhere else. So any
  selection of places holds as many requests as are at one of them, and all of them hold
  every request that has started.

  What is proved:
    1. `populations_conserved` — both views hold every request, and every bin is exact.
-/

namespace ServingSim.RequestState

open StepFunction

/-! ## Places of a request -/

/-- The place a transition enters. -/
def placeOf (categories : List String) (transition : Transition) : Place :=
  ⟨(categories[transition.code]?).getD "", transition.pool, transition.worker⟩

/-- Where a request is at an instant: at its last transition by then, or where it was. -/
noncomputable def placeAt (categories : List String) :
    Option Place → List Transition → ℝ → Option Place
  | previous, [], _ => previous
  | previous, transition :: transitions, x =>
    if (transition.timeMs : ℝ) ≤ x then
      placeAt categories (some (placeOf categories transition)) transitions x
    else previous

/-- One for a request at a selected place. -/
def countAt (selected : Place → Bool) (place : Option Place) : ℤ :=
  place.elim 0 fun place => if selected place then 1 else 0

theorem countAt_nonneg (selected : Place → Bool) (place : Option Place) :
    0 ≤ countAt selected place := by
  cases place with
  | none => exact le_refl _
  | some place =>
    show 0 ≤ if selected place then (1 : ℤ) else 0
    split <;> decide

/-- The deltas at selected places. -/
def selectedDeltas (selected : Place → Bool) (pushes : List Push) : List TimedDelta :=
  (pushes.filter fun push => selected push.place).map Push.delta

/-- The population of selected places. -/
noncomputable def populationOf (selected : Place → Bool) (pushes : List Push) (x : ℝ) : ℤ :=
  populationAt (selectedDeltas selected pushes) x

section population

variable {selected : Place → Bool} {pushes pushes' : List Push} {push : Push} {x : ℝ}

theorem populationAt_eq_sum (events : List TimedDelta) (x : ℝ) :
    populationAt events x = (events.map fun event =>
      if (event.timeMs : ℝ) ≤ x then event.delta else 0).sum := by
  rw [populationAt, height_eq_sum, atReals, List.map_map, List.map_map]
  rfl

theorem populationOf_append : populationOf selected (pushes ++ pushes') x =
    populationOf selected pushes x + populationOf selected pushes' x := by
  simp [populationOf, selectedDeltas, populationAt_eq_sum]

theorem populationOf_singleton : populationOf selected [push] x =
    if (push.delta.timeMs : ℝ) ≤ x then countAt selected (some push.place) * push.delta.delta
    else 0 := by
  by_cases h : selected push.place <;>
    simp [populationOf, selectedDeltas, populationAt_eq_sum, countAt, h]

theorem populationOf_eq_zero (h : ∀ push ∈ pushes, x < (push.delta.timeMs : ℝ)) :
    populationOf selected pushes x = 0 := by
  induction pushes with
  | nil => simp [populationOf, selectedDeltas, populationAt_eq_sum]
  | cons push pushes ih =>
    rw [← List.singleton_append, populationOf_append, populationOf_singleton,
      if_neg (not_le.mpr (h push List.mem_cons_self)),
      ih fun other hmem => h other (List.mem_cons_of_mem _ hmem), add_zero]

end population

/-! ## Timelines -/

section timelines

variable {categories : List String}

/-- Transitions in time order, of codes there are. -/
structure Valid (categories : List String) (transitions : List Transition) : Prop where
  ordered : transitions.Pairwise fun a b => a.timeMs ≤ b.timeMs
  known : ∀ transition ∈ transitions, transition.code < categories.length

/-- Pushes in a time range. -/
def Within (lo hi : ℚ) (pushes : List Push) : Prop :=
  ∀ push ∈ pushes, lo ≤ push.delta.timeMs ∧ push.delta.timeMs ≤ hi

theorem pushTransitions_spec {transitions : List Transition} (h : Valid categories transitions)
    (out : EventSet) (previous : Option Place) {previousTime : ℚ}
    (hstart : ∀ transition ∈ transitions, previousTime ≤ transition.timeMs) :
    ∃ state new, transitions.foldlM (pushTransition categories) (out, previous, previousTime) =
        .ok state ∧ state.1.pushes = out.pushes ++ new ∧ out.spanMs ≤ state.1.spanMs ∧
      Within previousTime state.1.spanMs new ∧
      ∀ selected x, countAt selected previous + populationOf selected new x =
        countAt selected (placeAt categories previous transitions x) := by
  -- the invariant: where the sweep stands plus what is still pushed is the place at `x`
  induction transitions generalizing out previous previousTime with
  | nil =>
    refine ⟨_, [], rfl, (List.append_nil _).symm, le_refl _, fun _ hmem =>
      (List.not_mem_nil hmem).elim, fun selected x => ?_⟩
    rw [populationOf_eq_zero fun _ hmem => (List.not_mem_nil hmem).elim, add_zero]
    rfl
  | cons transition transitions ih =>
    have hordered := List.pairwise_cons.mp h.ordered
    have hcode := h.known transition List.mem_cons_self
    have htime := hstart transition List.mem_cons_self
    set left : List Push := previous.elim [] fun old => [⟨old, ⟨transition.timeMs, -1⟩⟩] with hleft
    set entered : Push := ⟨placeOf categories transition, ⟨transition.timeMs, 1⟩⟩ with hentered
    have hcategory : categories[transition.code]? =
        some (placeOf categories transition).category := by
      rw [placeOf, List.getElem?_eq_getElem hcode, Option.getD_some]
    obtain ⟨state, new, hstate, hpushes, hspan, hwithin, hcount⟩ := ih
      ⟨hordered.2, fun other hmem => h.known other (List.mem_cons_of_mem _ hmem)⟩
      { out with
        pushes := out.pushes ++ left ++ [entered]
        spanMs := max out.spanMs transition.timeMs
        transitions := out.transitions + 1 }
      (some (placeOf categories transition)) hordered.1
    have hstep : pushTransition categories (out, previous, previousTime) transition =
        .ok ({ out with
        pushes := out.pushes ++ left ++ [entered]
        spanMs := max out.spanMs transition.timeMs
        transitions := out.transitions + 1 }, some (placeOf categories transition),
          transition.timeMs) :=
      bind_eq_ok_iff.mpr ⟨(), ensure_eq_ok_iff.mpr htime, bind_eq_ok_iff.mpr
        ⟨_, required_eq_ok_iff.mpr hcategory, rfl⟩⟩
    have htimes : ∀ push ∈ left ++ [entered], push.delta.timeMs = transition.timeMs := by
      intro push hmem
      rcases List.mem_append.mp hmem with hmem | hmem
      · cases previous with
        | none => exact (List.not_mem_nil hmem).elim
        | some old => rw [List.mem_singleton.mp hmem]
      · rw [List.mem_singleton.mp hmem]
    have hreached : transition.timeMs ≤ state.1.spanMs := (le_max_right _ _).trans hspan
    refine ⟨state, left ++ [entered] ++ new, ?_, ?_, (le_max_left _ _).trans hspan, ?_, ?_⟩
    · rw [List.foldlM_cons, hstep]
      exact hstate
    · rw [hpushes]
      simp only [List.append_assoc]
    · intro push hmem
      rcases List.mem_append.mp hmem with hmem | hmem
      · rw [htimes push hmem]
        exact ⟨htime, hreached⟩
      · exact ⟨htime.trans (hwithin push hmem).1, (hwithin push hmem).2⟩
    · intro selected x
      by_cases hx : (transition.timeMs : ℝ) ≤ x
      · -- the previous place is left, the next one entered
        have hleft' : populationOf selected left x = -countAt selected previous := by
          cases previous with
          | none => simp [hleft, populationOf, selectedDeltas, populationAt_eq_sum, countAt]
          | some old =>
            rw [hleft, Option.elim_some, populationOf_singleton, if_pos hx]
            ring
        have hentered' : populationOf selected [entered] x =
            countAt selected (some (placeOf categories transition)) := by
          rw [populationOf_singleton, if_pos hx, mul_one]
        rw [populationOf_append, populationOf_append, hleft', hentered', placeAt, if_pos hx,
          ← hcount]
        ring
      · rw [placeAt, if_neg hx, populationOf_eq_zero, add_zero]
        intro push hmem
        refine (not_le.mp hx).trans_le (Rat.cast_le.mpr ?_)
        rcases List.mem_append.mp hmem with hmem | hmem
        · rw [htimes push hmem]
        · exact (hwithin push hmem).1

/-- A selection of places holds the requests that are at one of them. -/
structure Holds (categories : List String) (timelines : List (ℚ × List Transition))
    (out : EventSet) : Prop where
  within : Within 0 out.spanMs out.pushes
  holds : ∀ selected x, populationOf selected out.pushes x =
    (timelines.map fun timeline => countAt selected (placeAt categories none timeline.2 x)).sum

theorem pushTimeline_spec {timelines : List (ℚ × List Transition)} {out : EventSet}
    {timeline : ℚ × List Transition} (h : Holds categories timelines out) (hlogged : 0 ≤ timeline.1)
    (hvalid : Valid categories timeline.2)
    (hstart : ∀ transition ∈ timeline.2, 0 ≤ transition.timeMs) :
    ∃ out', pushTimeline categories out timeline = .ok out' ∧
      Holds categories (timelines ++ [timeline]) out' := by
  have hconcat : ∀ selected x, ((timelines ++ [timeline]).map fun timeline =>
      countAt selected (placeAt categories none timeline.2 x)).sum =
        populationOf selected out.pushes x +
          countAt selected (placeAt categories none timeline.2 x) := by
    intro selected x
    rw [List.map_append, List.sum_append, ← h.holds]
    simp
  have hwiden : ∀ {hi}, out.spanMs ≤ hi → Within 0 hi out.pushes := fun hle push hmem =>
    ⟨(h.within push hmem).1, (h.within push hmem).2.trans hle⟩
  unfold pushTimeline
  by_cases hempty : timeline.2.isEmpty = true
  · refine ⟨_, bind_eq_ok_iff.mpr ⟨(), ensure_eq_ok_iff.mpr hlogged, if_pos hempty⟩,
      hwiden (le_max_left _ _), fun selected x => ?_⟩
    rw [hconcat, List.isEmpty_iff.mp hempty]
    exact (add_zero _).symm
  · obtain ⟨state, new, hstate, hpushes, hspan, hwithin, hcount⟩ := pushTransitions_spec hvalid
      { out with
        spanMs := max out.spanMs timeline.1
        requestsWithHistory := out.requestsWithHistory + 1 } none hstart
    refine ⟨state.1, bind_eq_ok_iff.mpr ⟨(), ensure_eq_ok_iff.mpr hlogged,
      (if_neg hempty).trans (bind_eq_ok_iff.mpr ⟨state, hstate, rfl⟩)⟩, ?_, fun selected x => ?_⟩
    · rw [hpushes]
      intro push hmem
      rcases List.mem_append.mp hmem with hmem | hmem
      · exact hwiden ((le_max_left _ _).trans hspan) push hmem
      · exact hwithin push hmem
    · have hnone : countAt selected none = 0 := rfl
      rw [hconcat, hpushes, populationOf_append, ← hcount, hnone, zero_add]

theorem buildEventSet_spec {timelines : List (ℚ × List Transition)} {names : List String}
    (hcategories : names.mapM categoryOf = .ok categories)
    (h : ∀ timeline ∈ timelines, 0 ≤ timeline.1 ∧ Valid categories timeline.2 ∧
      ∀ transition ∈ timeline.2, 0 ≤ transition.timeMs) :
    ∃ events, buildEventSet timelines names = .ok events ∧ Holds categories timelines events := by
  obtain ⟨events, hevents, hholds⟩ := foldlM_ok_of_visited (I := Holds categories)
    (f := pushTimeline categories) (l := timelines) (b := {})
    (fun visited timeline rest out hsplit hout => by
      obtain ⟨hlogged, hvalid, hstart⟩ :=
        h timeline (hsplit ▸ List.mem_append_right _ List.mem_cons_self)
      exact pushTimeline_spec hout hlogged hvalid hstart)
    ⟨fun _ hmem => (List.not_mem_nil hmem).elim, fun selected x => by
      rw [populationOf_eq_zero fun _ hmem => (List.not_mem_nil hmem).elim]
      rfl⟩
  exact ⟨events, bind_eq_ok_iff.mpr ⟨categories, hcategories, hevents⟩, hholds⟩

theorem Holds.nonneg {timelines : List (ℚ × List Transition)} {out : EventSet}
    (h : Holds categories timelines out) (selected : Place → Bool) (x : ℝ) :
    0 ≤ populationOf selected out.pushes x := by
  rw [h.holds]
  refine List.sum_nonneg fun count hcount => ?_
  obtain ⟨timeline, -, rfl⟩ := List.mem_map.mp hcount
  exact countAt_nonneg _ _

/-- The requests whose first transition has happened. -/
noncomputable def startedBy (timelines : List (ℚ × List Transition)) (x : ℝ) : Nat :=
  timelines.countP fun timeline => timeline.2.head?.any fun first => (first.timeMs : ℝ) ≤ x

theorem countAt_all (transitions : List Transition) (x : ℝ) :
    countAt (fun _ => true) (placeAt categories none transitions x) =
      if transitions.head?.any fun first => (first.timeMs : ℝ) ≤ x then 1 else 0 := by
  have hstays : ∀ (transitions : List Transition) (place : Place),
      countAt (fun _ => true) (placeAt categories (some place) transitions x) = 1 := by
    intro transitions
    induction transitions with
    | nil => exact fun _ => rfl
    | cons transition transitions ih =>
      intro place
      rw [placeAt]
      split
      · exact ih _
      · rfl
  cases transitions with
  | nil => rfl
  | cons first rest =>
    rw [placeAt]
    by_cases hx : (first.timeMs : ℝ) ≤ x
    · rw [if_pos hx, hstays]
      simp [hx]
    · rw [if_neg hx]
      simp [hx, countAt]

theorem Holds.all {timelines : List (ℚ × List Transition)} {out : EventSet}
    (h : Holds categories timelines out) (x : ℝ) :
    populationOf (fun _ => true) out.pushes x = startedBy timelines x := by
  rw [h.holds, startedBy]
  clear h
  induction timelines with
  | nil => rfl
  | cons timeline timelines ih =>
    rw [List.map_cons, List.sum_cons, ih, countAt_all, List.countP_cons]
    push_cast
    rw [add_comm]

end timelines

/-! ## The two views -/

section views

variable {pushes : List Push} {x : ℝ}

theorem sum_byCategory (pushes : List Push) (x : ℝ) :
    ((byCategory pushes).map fun series => populationAt series.2 x).sum =
      populationOf (fun _ => true) pushes x := by
  have hall : populationOf (fun _ => true) pushes x = (pushes.map fun push : Push =>
      if (push.delta.timeMs : ℝ) ≤ x then push.delta.delta else 0).sum := by
    rw [populationOf, selectedDeltas, List.filter_true, populationAt_eq_sum, List.map_map]
    rfl
  rw [hall, ← Grouped.sum_group fun push : Push => push.place.category, byCategory, List.map_map]
  refine congrArg List.sum (List.map_congr_left fun g _ => ?_)
  rw [Function.comp_apply, populationAt_eq_sum, List.map_map]
  rfl

theorem mem_byCategory {series : String × List TimedDelta} (h : series ∈ byCategory pushes) :
    series.2 = selectedDeltas (fun place => place.category = series.1) pushes := by
  obtain ⟨g, hg, rfl⟩ := List.mem_map.mp h
  rw [(Grouped.mem_group hg).2]
  rfl

namespace EventSet

variable (events : EventSet)

/-- The cluster's populations, summed over the categories. -/
noncomputable def clusterPopulation (x : ℝ) : ℤ :=
  (events.cluster.map fun series => populationAt series.2 x).sum

/-- The workers' populations, summed over workers and categories. -/
noncomputable def workerPopulation (x : ℝ) : ℤ := (events.categoriesByWorker.map fun worker =>
    (worker.2.map fun series => populationAt series.2 x).sum).sum

/-- Every series that is kept: of a category, and of a category of a worker. -/
def series : List (List TimedDelta) :=
  events.cluster.map Prod.snd ++
    (events.categoriesByWorker.flatMap fun worker => worker.2).map Prod.snd

variable {events}

theorem workerPopulation_eq (x : ℝ) :
    events.workerPopulation x = populationOf (fun _ => true) events.pushes x := by
  rw [← sum_byCategory, workerPopulation, categoriesByWorker, List.map_map]
  have hworker : ∀ g ∈ Grouped.group (fun push : Push =>
      toLex (push.place.pool, push.place.worker)) events.pushes,
        ((byCategory g.2).map fun series => populationAt series.2 x).sum =
          (g.2.map fun push : Push =>
            if (push.delta.timeMs : ℝ) ≤ x then push.delta.delta else 0).sum := by
    intro g _
    rw [sum_byCategory, populationOf, selectedDeltas, List.filter_true, populationAt_eq_sum,
      List.map_map]
    rfl
  rw [sum_byCategory, populationOf, selectedDeltas, List.filter_true, populationAt_eq_sum,
    List.map_map, ← Grouped.sum_group fun push : Push =>
      toLex (push.place.pool, push.place.worker)]
  exact congrArg List.sum (List.map_congr_left hworker)

theorem exists_selected {series : List TimedDelta} (h : series ∈ events.series) :
    ∃ selected, series = selectedDeltas selected events.pushes := by
  rcases List.mem_append.mp h with h | h
  · obtain ⟨category, hcategory, rfl⟩ := List.mem_map.mp h
    exact ⟨_, mem_byCategory hcategory⟩
  · obtain ⟨category, hcategory, rfl⟩ := List.mem_map.mp h
    obtain ⟨worker, hworker, hcategory⟩ := List.mem_flatMap.mp hcategory
    obtain ⟨g, hg, rfl⟩ := List.mem_map.mp hworker
    refine ⟨fun place => place.category = category.1 ∧ toLex (place.pool, place.worker) = g.1, ?_⟩
    rw [mem_byCategory hcategory, (Grouped.mem_group hg).2, selectedDeltas, selectedDeltas,
      List.filter_filter]
    refine congrArg (List.map Push.delta) (List.filter_congr fun push _ => ?_)
    simp

end EventSet

end views

/-! ## Conservation -/

section conservation

variable {timelines : List (ℚ × List Transition)} {names categories : List String}

theorem splitOnce_isSome {text : String} (h : ':' ∈ text.toList) :
    ∃ split, splitOnce ':' text = some split := by
  unfold splitOnce
  have hspan := List.span_eq_takeWhile_dropWhile (p := fun c : Char => decide (c ≠ ':'))
    (l := text.toList)
  cases hrest : text.toList.dropWhile fun c => decide (c ≠ ':') with
  | nil =>
    have hall := List.dropWhile_eq_nil_iff.mp hrest ':' h
    simp at hall
  | cons c after =>
    rw [hspan, hrest]
    exact ⟨_, rfl⟩

theorem mapM_categoryOf (h : ∀ name ∈ names, ':' ∈ name.toList) :
    ∃ categories, names.mapM categoryOf = .ok categories ∧ categories.length = names.length := by
  obtain ⟨categories, hcategories⟩ : ∃ categories, names.mapM categoryOf = .ok categories := by
    refine mapM_ok_of_forall fun name hname => ?_
    obtain ⟨split, hsplit⟩ := splitOnce_isSome (h name hname)
    exact ⟨split.1, bind_eq_ok_iff.mpr ⟨split, required_eq_ok_iff.mpr hsplit, rfl⟩⟩
  exact ⟨categories, hcategories, (mapM_eq_ok_iff.mp hcategories).length_eq.symm⟩

/-- A list of timelines that may be tracked: logged at some time, the transitions in time order
from zero on, and their codes in the vocabulary. -/
def Tracked (names : List String) (timelines : List (ℚ × List Transition)) : Prop :=
  ∀ timeline ∈ timelines, 0 ≤ timeline.1 ∧ timeline.2.Pairwise (fun a b => a.timeMs ≤ b.timeMs) ∧
    ∀ transition ∈ timeline.2, 0 ≤ transition.timeMs ∧ transition.code < names.length

/-- Every bin is the time average of the population over it, and the bins times their width add
up to the population's integral. -/
structure ExactBins (events : List TimedDelta) (spanMs : ℚ) (nBins : Nat) (series : BinnedSeries) :
    Prop where
  average : series.values.map (fun value : ℚ => (value : ℝ)) =
      (List.range nBins).map fun bin : Nat =>
    (∫ x in ((bin * (spanMs / nBins) : ℚ) : ℝ)..(((bin + 1 : Nat) * (spanMs / nBins) : ℚ) : ℝ),
      (populationAt events x : ℝ)) / ((spanMs / nBins : ℚ) : ℝ)
  total : (((series.values.map fun value => value * (spanMs / nBins)).sum : ℚ) : ℝ) =
    ∫ x in ((0 : ℚ) : ℝ)..(spanMs : ℝ), (populationAt events x : ℝ)

theorem exactBins {events : List TimedDelta} {spanMs : ℚ} {nBins : Nat} (hspan : 0 < spanMs)
    (hbins : 0 < nBins) (hin : ∀ event ∈ events, 0 ≤ event.timeMs ∧ event.timeMs ≤ spanMs)
    (hnonneg : ∀ x, 0 ≤ populationAt events x) :
    ∃ series, binDeltas events spanMs nBins = .ok series ∧
        ExactBins events spanMs nBins series := by
  obtain ⟨series, hseries, hvalues, htotal⟩ := binDeltas_exact hspan hbins hin hnonneg
  have hwidth : 0 < spanMs / nBins := div_pos hspan (by exact_mod_cast hbins)
  refine ⟨series, hseries, ?_, ?_⟩
  · rw [hvalues, List.map_map]
    refine List.map_congr_left fun bin _ => ?_
    have hintegral := integral_atReals (events.map TimedDelta.jump) (bin_le hwidth bin)
    rw [Function.comp_apply, Rat.cast_div, ← hintegral]
    rfl
  · rw [htotal, ← integral_atReals _ hspan.le]
    rfl

theorem Holds.selected_within {out : EventSet} (h : Holds categories timelines out)
    (selected : Place → Bool) : ∀ event ∈ selectedDeltas selected out.pushes,
      0 ≤ event.timeMs ∧ event.timeMs ≤ out.spanMs := by
  intro event hevent
  obtain ⟨push, hpush, rfl⟩ := List.mem_map.mp hevent
  exact h.within push (List.mem_filter.mp hpush).1

theorem populationAt_flatten_nonneg {parts : List (List TimedDelta)} {x : ℝ}
    (h : ∀ part ∈ parts, 0 ≤ populationAt part x) : 0 ≤ populationAt parts.flatten x := by
  induction parts with
  | nil => exact le_refl _
  | cons part parts ih =>
    rw [List.flatten_cons, populationAt_eq_sum, List.map_append, List.sum_append,
      ← populationAt_eq_sum, ← populationAt_eq_sum]
    exact add_nonneg (h part List.mem_cons_self)
      (ih fun other hmem => h other (List.mem_cons_of_mem _ hmem))

end conservation

/-- Tracked timelines are taken up; both views hold at every instant the requests whose first
transition has happened; and every series, or several of them together, is binned exactly. -/
theorem populations_conserved {timelines : List (ℚ × List Transition)} {names : List String}
    (hnames : ∀ name ∈ names, ':' ∈ name.toList) (htracked : Tracked names timelines) :
    ∃ events, buildEventSet timelines names = .ok events ∧
      (∀ x, events.clusterPopulation x = startedBy timelines x ∧
        events.workerPopulation x = startedBy timelines x) ∧
      ∀ nBins, 0 < events.spanMs → 0 < nBins → ∀ parts : List (List TimedDelta),
          (∀ part ∈ parts, part ∈ events.series) →
        ∃ series, binDeltas parts.flatten events.spanMs nBins = .ok series ∧
          ExactBins parts.flatten events.spanMs nBins series := by
  obtain ⟨categories, hcategories, hlength⟩ := mapM_categoryOf hnames
  obtain ⟨events, hevents, hholds⟩ := buildEventSet_spec hcategories fun timeline hmem => by
    obtain ⟨hlogged, hordered, hknown⟩ := htracked timeline hmem
    exact ⟨hlogged, ⟨hordered, fun transition ht => hlength ▸ (hknown transition ht).2⟩,
      fun transition ht => (hknown transition ht).1⟩
  refine ⟨events, hevents, fun x => ⟨?_, ?_⟩, fun nBins hspan hbins parts hparts => ?_⟩
  · rw [← hholds.all, ← sum_byCategory]
    rfl
  · rw [← hholds.all, EventSet.workerPopulation_eq]
  · refine exactBins hspan hbins (fun event hevent => ?_)
      fun x => populationAt_flatten_nonneg fun part hpart => ?_
    · obtain ⟨part, hpart, hevent⟩ := List.mem_flatten.mp hevent
      obtain ⟨selected, rfl⟩ := EventSet.exists_selected (hparts part hpart)
      exact hholds.selected_within selected event hevent
    · obtain ⟨selected, rfl⟩ := EventSet.exists_selected (hparts part hpart)
      exact hholds.nonneg selected x

/-- A request that moves between workers, with a self-transition, and one beside it. -/
def movingRequests : List (ℚ × List Transition) :=
  [(10, [⟨0, 0, 0, 0⟩, ⟨2, 1, 0, 0⟩, ⟨2, 1, 0, 0⟩, ⟨8, 2, 1, 3⟩]), (4, [⟨1, 0, 0, 1⟩])]

def movingNames : List String := ["pending:prefill", "active:prefill", "done:request"]

theorem populations_conserved_moving :
    ∃ events, buildEventSet movingRequests movingNames = .ok events ∧
      events.clusterPopulation 5 = startedBy movingRequests 5 ∧
      events.workerPopulation 5 = startedBy movingRequests 5 ∧
      ∃ series, binDeltas events.series.flatten events.spanMs 5 = .ok series ∧
        ExactBins events.series.flatten events.spanMs 5 series := by
  obtain ⟨events, hevents, hboth, hbinned⟩ := populations_conserved
    (show ∀ name ∈ movingNames, ':' ∈ name.toList by decide)
    (show Tracked movingNames movingRequests by unfold Tracked; decide +kernel)
  obtain ⟨events', hevents', hspan⟩ : ∃ events, buildEventSet movingRequests movingNames =
      .ok events ∧ decide (events.spanMs = 10) = true := exists_ok_of_check (by decide +kernel)
  obtain rfl := Except.ok.inj (hevents.symm.trans hevents')
  have hpositive : 0 < events.spanMs := of_decide_eq_true hspan ▸ by decide
  obtain ⟨series, hseries⟩ := hbinned 5 hpositive (by decide) events.series fun _ hmem => hmem
  exact ⟨events, hevents, (hboth 5).1, (hboth 5).2, series, hseries⟩

end ServingSim.RequestState
