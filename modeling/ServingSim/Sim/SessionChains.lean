import ServingSim.Sim.Release

/-
  The chains of a trace: each row is linked to the next row of its session.
-/

namespace ServingSim

open KeyedTotal

/-! ## Rounds of a session -/

/-- The session of a row. -/
def sessionAt (releases : List ReleaseMetadata) (row : Nat) : Option SessionId :=
  (releases[row]?.bind ReleaseMetadata.session).map SessionReleaseMetadata.sessionId

section follows

variable (sessionOf : Nat → Option SessionId)

/-- `next` is the next row of the session of `row`. -/
structure Follows (row next : Nat) : Prop where
  lt : row < next
  same : sessionOf row = sessionOf next
  session : sessionOf next ≠ none
  between : ∀ other, row < other → other < next → sessionOf other ≠ sessionOf next

variable {sessionOf}

theorem Follows.left_unique {row row' next : Nat} (h : Follows sessionOf row next)
    (h' : Follows sessionOf row' next) : row = row' := by
  rcases Nat.lt_trichotomy row row' with hlt | heq | hlt
  · exact absurd h'.same (h.between row' hlt h'.lt)
  · exact heq
  · exact absurd h.same (h'.between row hlt h.lt)

theorem Follows.right_unique {row next next' : Nat} (h : Follows sessionOf row next)
    (h' : Follows sessionOf row next') : next = next' := by
  have hsame : sessionOf next = sessionOf next' := h.same.symm.trans h'.same
  rcases Nat.lt_trichotomy next next' with hlt | heq | hlt
  · exact absurd hsame (h'.between next h.lt hlt)
  · exact heq
  · exact absurd hsame.symm (h.between next' h'.lt hlt)

theorem Follows.le_of_lt {row next other : Nat} (h : Follows sessionOf row next)
    (hsame : sessionOf other = sessionOf next) (hlt : other < next) : other ≤ row := by
  by_contra hgt
  exact h.between other (by omega) hlt hsame

theorem exists_follows {row next : Nat} (hlt : row < next)
    (hsame : sessionOf row = sessionOf next) (hsession : sessionOf next ≠ none) :
    ∃ previous, Follows sessionOf previous next := by
  -- the last of the earlier rows
  let earlier := (Finset.range next).filter fun other => sessionOf other = sessionOf next
  obtain ⟨previous, hmem, hmax⟩ := Finset.exists_max_image earlier id
    ⟨row, Finset.mem_filter.mpr ⟨Finset.mem_range.mpr hlt, hsame⟩⟩
  obtain ⟨hprevious, hsame'⟩ := Finset.mem_filter.mp hmem
  refine ⟨previous, Finset.mem_range.mp hprevious, hsame', hsession, ?_⟩
  intro other hafter hbefore heq
  have hle := hmax other (Finset.mem_filter.mpr ⟨Finset.mem_range.mpr hbefore, heq⟩)
  exact absurd hle (Nat.not_le.mpr hafter)

end follows

/-! ## Linking rows one by one -/

/-- The chains of the first `count` rows. -/
structure Chains.Linked (releases : List ReleaseMetadata) (count : Nat) (chains : Chains) :
    Prop where
  lengthSuccessor : chains.successor.length = releases.length
  lengthPredecessor : chains.hasPredecessor.length = releases.length
  latest : ∀ session row, chains.latestRound.lookup session = some row ↔
    row < count ∧ sessionAt releases row = some session ∧
      ∀ other, row < other → other < count → sessionAt releases other ≠ some session
  successor : ∀ row next, chains.successor.getD row none = some next ↔
    next < count ∧ Follows (sessionAt releases) row next
  predecessor : ∀ row, chains.hasPredecessor.getD row false = true ↔
    row < count ∧ ∃ previous, Follows (sessionAt releases) previous row

theorem Chains.linked_unlinked (releases : List ReleaseMetadata) :
    Chains.Linked releases 0 (.unlinked releases.length) where
  lengthSuccessor := by simp [unlinked]
  lengthPredecessor := by simp [unlinked]
  latest := by simp [unlinked]
  successor := by
    intro row next
    simp only [unlinked, List.getD_eq_getElem?_getD, List.getElem?_replicate]
    split <;> simp
  predecessor := by
    intro row
    simp only [unlinked, List.getD_eq_getElem?_getD, List.getElem?_replicate]
    split <;> simp

section link

variable {releases : List ReleaseMetadata} {count : Nat} {chains : Chains}

theorem getD_set {α : Type} (l : List α) {i : Nat} (a d : α) (hi : i < l.length) (j : Nat) :
    (l.set i a).getD j d = if j = i then a else l.getD j d := by
  rw [List.getD_eq_getElem?_getD, List.getD_eq_getElem?_getD]
  by_cases h : j = i
  · subst h
    rw [List.getElem?_set_self hi, if_pos rfl]
    rfl
  · rw [List.getElem?_set_ne (Ne.symm h), if_neg h]

section

variable (h : chains.Linked releases count)

include h

theorem Chains.Linked.skip
    (hrow : sessionAt releases count = none) : chains.Linked releases (count + 1) where
  lengthSuccessor := h.lengthSuccessor
  lengthPredecessor := h.lengthPredecessor
  latest := by
    intro session row
    rw [h.latest]
    constructor
    · rintro ⟨hlt, hsession, hafter⟩
      refine ⟨by omega, hsession, fun other hother hother' => ?_⟩
      rcases Nat.lt_succ_iff_lt_or_eq.mp hother' with hother' | rfl
      · exact hafter other hother hother'
      · rw [hrow]
        nofun
    · rintro ⟨hlt, hsession, hafter⟩
      refine ⟨?_, hsession, fun other hother hother' => hafter other hother (by omega)⟩
      rcases Nat.lt_succ_iff_lt_or_eq.mp hlt with hlt | rfl
      · exact hlt
      · rw [hrow] at hsession
        cases hsession
  successor := by
    intro row next
    rw [h.successor]
    refine and_congr_left fun hfollows => ⟨fun hlt => by omega, fun hlt => ?_⟩
    rcases Nat.lt_succ_iff_lt_or_eq.mp hlt with hlt | rfl
    · exact hlt
    · exact absurd hrow hfollows.session
  predecessor := by
    intro row
    rw [h.predecessor]
    refine and_congr_left fun ⟨previous, hfollows⟩ => ⟨fun hlt => by omega, fun hlt => ?_⟩
    rcases Nat.lt_succ_iff_lt_or_eq.mp hlt with hlt | rfl
    · exact hlt
    · exact absurd hrow hfollows.session

/-- The row of a session seen last, once the row at `count` is in the session. -/
theorem Chains.Linked.latest_insert {session : SessionId}
    (hrow : sessionAt releases count = some session) (session' : SessionId) (row : Nat) :
    (chains.latestRound.insert session count).lookup session' = some row ↔
      row < count + 1 ∧ sessionAt releases row = some session' ∧
        ∀ other, row < other → other < count + 1 → sessionAt releases other ≠ some session' := by
  by_cases hsame : session' = session
  · subst hsame
    rw [AList.lookup_insert]
    constructor
    · rintro ⟨⟩
      exact ⟨Nat.lt_succ_self _, hrow, fun other hother hother' => by omega⟩
    · rintro ⟨hlt, hsession, hafter⟩
      rcases Nat.lt_succ_iff_lt_or_eq.mp hlt with hlt | rfl
      · exact absurd hrow (hafter count hlt (Nat.lt_succ_self _))
      · rfl
  · rw [AList.lookup_insert_ne hsame, h.latest]
    constructor
    · rintro ⟨hlt, hsession, hafter⟩
      refine ⟨by omega, hsession, fun other hother hother' heq => ?_⟩
      rcases Nat.lt_succ_iff_lt_or_eq.mp hother' with hother' | rfl
      · exact hafter other hother hother' heq
      · exact hsame (Option.some.inj (heq.symm.trans hrow))
    · rintro ⟨hlt, hsession, hafter⟩
      refine ⟨?_, hsession, fun other hother hother' => hafter other hother (by omega)⟩
      rcases Nat.lt_succ_iff_lt_or_eq.mp hlt with hlt | rfl
      · exact hlt
      · exact absurd (Option.some.inj (hsession.symm.trans hrow)) hsame

theorem Chains.Linked.linkFirst {session : SessionId}
    (hrow : sessionAt releases count = some session)
    (hlookup : chains.latestRound.lookup session = none) :
    Chains.Linked releases (count + 1)
      { chains with latestRound := chains.latestRound.insert session count } := by
  have hfirst : ∀ previous, ¬Follows (sessionAt releases) previous count := by
    intro previous hfollows
    have hlatest := (h.latest session previous).mpr ⟨hfollows.lt, hfollows.same.trans hrow,
      fun other hother hother' => hrow ▸ hfollows.between other hother hother'⟩
    rw [hlookup] at hlatest
    cases hlatest
  constructor
  case lengthSuccessor => exact h.lengthSuccessor
  case lengthPredecessor => exact h.lengthPredecessor
  case latest => exact h.latest_insert hrow
  case successor =>
    intro row next
    rw [h.successor]
    refine and_congr_left fun hfollows => ⟨fun hlt => by omega, fun hlt => ?_⟩
    rcases Nat.lt_succ_iff_lt_or_eq.mp hlt with hlt | rfl
    · exact hlt
    · exact absurd hfollows (hfirst row)
  case predecessor =>
    intro row
    rw [h.predecessor]
    refine and_congr_left fun ⟨previous, hfollows⟩ => ⟨fun hlt => by omega, fun hlt => ?_⟩
    rcases Nat.lt_succ_iff_lt_or_eq.mp hlt with hlt | rfl
    · exact hlt
    · exact absurd hfollows (hfirst previous)

theorem Chains.Linked.linkNext (hcount : count < releases.length)
    {session : SessionId} {previous : Nat} (hrow : sessionAt releases count = some session)
    (hlookup : chains.latestRound.lookup session = some previous) :
    Chains.Linked releases (count + 1)
      { successor := chains.successor.set previous (some count)
        hasPredecessor := chains.hasPredecessor.set count true
        latestRound := chains.latestRound.insert session count } := by
  obtain ⟨hprevious, hsession, hafter⟩ := (h.latest session previous).mp hlookup
  have hfollows : Follows (sessionAt releases) previous count :=
    ⟨hprevious, hsession.trans hrow.symm, by rw [hrow]; nofun,
      fun other hother hother' => hrow ▸ hafter other hother hother'⟩
  constructor
  case lengthSuccessor => exact List.length_set.trans h.lengthSuccessor
  case lengthPredecessor => exact List.length_set.trans h.lengthPredecessor
  case latest => exact h.latest_insert hrow
  case successor =>
    intro row next
    show (chains.successor.set previous (some count)).getD row none = some next ↔ _
    rw [getD_set _ _ _ (by rw [h.lengthSuccessor]; omega)]
    by_cases hsame : row = previous
    · subst hsame
      rw [if_pos rfl]
      constructor
      · rintro ⟨⟩
        exact ⟨Nat.lt_succ_self _, hfollows⟩
      · rintro ⟨-, hnext⟩
        rw [hfollows.right_unique hnext]
    · rw [if_neg hsame, h.successor]
      refine and_congr_left fun hnext => ⟨fun hlt => by omega, fun hlt => ?_⟩
      rcases Nat.lt_succ_iff_lt_or_eq.mp hlt with hlt | rfl
      · exact hlt
      · exact absurd (hnext.left_unique hfollows) hsame
  case predecessor =>
    intro row
    show (chains.hasPredecessor.set count true).getD row false = true ↔ _
    rw [getD_set _ _ _ (by rw [h.lengthPredecessor]; exact hcount)]
    by_cases hsame : row = count
    · subst hsame
      rw [if_pos rfl]
      exact iff_of_true rfl ⟨Nat.lt_succ_self _, previous, hfollows⟩
    · rw [if_neg hsame, h.predecessor]
      exact and_congr_left fun _ => by omega

theorem Chains.Linked.link {release : ReleaseMetadata}
    (hrow : releases[count]? = some release) :
    (chains.link count release).Linked releases (count + 1) := by
  have hcount : count < releases.length := (List.getElem?_eq_some_iff.mp hrow).1
  unfold Chains.link
  cases hsession : release.session with
  | none => exact h.skip (by simp [sessionAt, hrow, hsession])
  | some session =>
    have hat : sessionAt releases count = some session.sessionId := by
      simp [sessionAt, hrow, hsession]
    cases hlookup : chains.latestRound.lookup session.sessionId with
    | none =>
      simp only [hlookup]
      exact h.linkFirst hat hlookup
    | some previous =>
      simp only [hlookup]
      exact h.linkNext hcount hat hlookup

end

end link

theorem buildChains_spec (releases : List ReleaseMetadata) :
    (∀ row next, (buildChains releases).1.getD row none = some next ↔
      Follows (sessionAt releases) row next) ∧
    ∀ row, (buildChains releases).2.getD row false = true ↔
      ∃ previous, Follows (sessionAt releases) previous row := by
  have hfold : ∀ (rest done : List ReleaseMetadata) (chains : Chains), done ++ rest = releases →
      chains.Linked releases done.length →
      ((rest.zipIdx done.length).foldl (fun chains row => Chains.link chains row.2 row.1)
        chains).Linked releases releases.length := by
    intro rest
    induction rest with
    | nil =>
      intro done chains hsplit hlinked
      rw [List.append_nil] at hsplit
      exact hsplit ▸ hlinked
    | cons release rest ih =>
      intro done chains hsplit hlinked
      have hrow : releases[done.length]? = some release := by
        rw [← hsplit, List.getElem?_append_right le_rfl, Nat.sub_self]
        rfl
      have hnext := ih (done ++ [release]) (chains.link done.length release)
        (by rw [List.append_assoc]; exact hsplit)
        (by rw [List.length_append]; exact hlinked.link hrow)
      rw [List.length_append] at hnext
      rw [List.zipIdx_cons, List.foldl_cons]
      exact hnext
  have hall := hfold releases [] (.unlinked releases.length) rfl (Chains.linked_unlinked releases)
  have hrows : ∀ row session, sessionAt releases row = some session → row < releases.length := by
    intro row session h
    by_contra hge
    rw [sessionAt, List.getElem?_eq_none (by omega)] at h
    cases h
  have hlast : ∀ row next, Follows (sessionAt releases) row next → next < releases.length := by
    intro row next hfollows
    obtain ⟨session, hsession⟩ := Option.ne_none_iff_exists'.mp hfollows.session
    exact hrows next session hsession
  refine ⟨fun row next => (hall.successor row next).trans (and_iff_right_of_imp (hlast row next)),
    fun row => (hall.predecessor row).trans (and_iff_right_of_imp ?_)⟩
  rintro ⟨previous, hfollows⟩
  exact hlast previous row hfollows

end ServingSim
