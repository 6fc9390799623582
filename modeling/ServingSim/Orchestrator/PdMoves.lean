import ServingSim.Orchestrator.PdCustody

/-
  The moves of a prefill/decode-disaggregated deployment.

  A tick is made of a few kinds of moves: a prefill worker ends or starts an iteration, an
  event is forwarded, a decode worker pulls, ends or starts an iteration, a landing is
  acknowledged. Each lemma takes a deployment that stands through one of them: the code
  does not fail, the deployment stands at the new places, and the events pushed are noted.
-/

namespace ServingSim

open Custody PendingOrderPolicy PdPrefillWorker PullDecodeWorker

section moves

variable {P : Type} [PendingOrderPolicy P] {prefillAcc decodeAcc : KvAccounting} {m k n : Nat}

/-- The deployment stands, and every event on its way is noted. -/
structure PdSound (cfg : PdConfig prefillAcc decodeAcc m k n)
    (prefill : Fin m → PdPrefillWorker P prefillAcc)
    (decode : Fin k → PullDecodeWorker decodeAcc m n) (world : World)
    (notices : List (PdNotice m)) (completed : List RequestId)
    (place : RequestId → PdPlace m k n) : Prop where
  stands : PdStands cfg prefill decode world place
  noted : PdNoted cfg.trace place notices completed

theorem view_update {σ τ : Type} (f : σ → τ) (place : RequestId → σ) (r : RequestId) (s : σ) :
    (fun q => f (Function.update place r s q)) = Function.update (fun q => f (place q)) r (f s) :=
  Function.comp_update f place r s

theorem filterMap_map_eq_nil {α β γ : Type} {f : α → β} {g : β → Option γ}
    (hg : ∀ a, g (f a) = none) (l : List α) : (l.map f).filterMap g = [] := by
  rw [List.filterMap_map, List.filterMap_eq_nil_iff]
  exact fun a _ => hg a

theorem filterMap_map_eq_map {α β γ : Type} {f : α → β} {g : β → Option γ} {h : α → γ}
    (hg : ∀ a, g (f a) = some (h a)) (l : List α) : (l.map f).filterMap g = l.map h := by
  rw [List.filterMap_map, List.filterMap_eq_map_iff_forall_eq_some]
  exact fun a _ => hg a

namespace PdSound

variable {cfg : PdConfig prefillAcc decodeAcc m k n}
  {prefill : Fin m → PdPrefillWorker P prefillAcc}
  {decode : Fin k → PullDecodeWorker decodeAcc m n} {world : World}
  {notices : List (PdNotice m)} {completed : List RequestId}
  {place : RequestId → PdPlace m k n}

/-! ## The prefill side -/

variable {r : RequestId}

theorem arrive (h : PdSound cfg prefill decode world notices completed place) (i : Fin m)
    (hr : r ∉ world.arrived) :
    ∃ world' : World, world.insert (cfg.trace r) = .ok world' ∧
      (EndsWith cfg.Panics ((prefill i).acceptMessage world' (.request r)) ∨
        ∃ w : PdPrefillWorker P prefillAcc,
          (prefill i).acceptMessage world' (.request r) = .ok (w, world') ∧
          PdSound cfg (Function.update prefill i w) decode world' notices completed
            (Function.update place r (.waiting i)) ∧
          PdPlace.Moves place (Function.update place r (.waiting i))) := by
  obtain ⟨hfresh, hid⟩ := cfg.trace_fresh r
  have habsent : place r = .absent := by
    by_contra hne
    exact hr ((h.stands.arrived r).mpr hne)
  set world' : World := { world with
    requests := Function.update world.requests r (cfg.trace r)
    arrived := r :: world.arrived } with hworld'
  have hinsert : world.insert (cfg.trace r) = .ok world' := by
    rw [World.insert, hid, ensure_eq_ok_iff.mpr hr]
    rfl
  have hself : world'.requests r = cfg.trace r := Function.update_self ..
  have hother : ∀ s, s ≠ r → world'.requests s = world.requests s := fun s hs =>
    Function.update_of_ne hs ..
  refine ⟨world', hinsert, ?_⟩
  rcases (h.stands.prefill i).accept world' (r := r) (by rw [habsent]; rfl) (by rw [hself]) with
    hfail | ⟨w, haccept, hw, -⟩
  · exact .inl (hfail.mono fun message => .inl)
  have hstep := PdPlace.update_step (show PdPlace.PrefillStep i (place r) (.waiting i) from
    habsent ▸ .arrive)
  refine .inr ⟨w, haccept, ⟨h.stands.prefillMove ?_ hstep
    (fun s holder j p hs => ?_) (fun s => ?_) (fun s => ?_) fun s => ?_,
    h.noted.stillOne (by simp [habsent]) (by simp [habsent]) (by rw [habsent]; rfl)⟩,
    .of_prefill hstep⟩
  · rw [view_update]
    simpa [PdPlace.prefillView] using hw
  · refine hother s fun hsr => ?_
    rw [hsr, habsent] at hs
    cases hs
  · by_cases hs : s = r
    · subst hs
      simp [hworld']
    · simp [hworld', hs, h.stands.arrived s]
  · by_cases hs : s = r
    · subst hs
      rw [hself]
    · rw [hother s hs]
      exact h.stands.definition s
  · by_cases hs : s = r
    · subst hs
      rw [Function.update_self, hself, hfresh]
      exact ⟨rfl, rfl⟩
    · rw [Function.update_of_ne hs, hother s hs]
      exact h.stands.progress s

/-- Where a request is once the iteration of prefill worker `i` is complete. -/
def prefilledPlace (trace : RequestId → RequestRecord) (i : Fin m)
    (place : RequestId → PdPlace m k n) (r : RequestId) : PdPlace m k n :=
  if place r = .prefilling i then
    if (trace r).targetOutputTokens ≤ 1 then .done none else .announced i
  else place r

theorem filterMap_finishedRequest (requests : List RequestId) (i : Fin m) :
    ((requests.map (finishedEvent cfg.prefill i cfg.trace)).map PdPrefillEvent.notice).filterMap
        PdNotice.finishedRequest =
      requests.filter fun r => (cfg.trace r).targetOutputTokens ≤ 1 := by
  induction requests with
  | nil => rfl
  | cons r requests ih =>
    rw [List.map_cons, List.map_cons, List.filterMap_cons, List.filter_cons, ih, finishedEvent]
    by_cases hr : (cfg.trace r).targetOutputTokens ≤ 1
    · simp [hr, PdPrefillEvent.notice, PdNotice.finishedRequest]
    · simp [hr, PdPrefillEvent.notice, PdNotice.finishedRequest]

theorem filterMap_announcedRequest (requests : List RequestId) (i : Fin m) :
    ((requests.map (finishedEvent cfg.prefill i cfg.trace)).map PdPrefillEvent.notice).filterMap
        PdNotice.announcedRequest =
      requests.filter fun r => ¬ (cfg.trace r).targetOutputTokens ≤ 1 := by
  induction requests with
  | nil => rfl
  | cons r requests ih =>
    rw [List.map_cons, List.map_cons, List.filterMap_cons, List.filter_cons, ih, finishedEvent]
    by_cases hr : (cfg.trace r).targetOutputTokens ≤ 1
    · simp [hr, PdPrefillEvent.notice, PdNotice.announcedRequest]
    · simp [hr, PdPrefillEvent.notice, PdNotice.announcedRequest]

theorem prefillComplete (h : PdSound cfg prefill decode world notices completed place)
    (i : Fin m) :
    ∃ (w : PdPrefillWorker P prefillAcc) (world' : World) (events : List (PdPrefillEvent m)),
      (prefill i).completeIteration cfg.prefill i world = .ok (w, world', events) ∧
      w.computeEnd = none ∧
      PdSound cfg (Function.update prefill i w) decode world'
        (notices ++ events.map PdPrefillEvent.notice) completed
        (prefilledPlace cfg.trace i place) ∧
      PdPlace.Moves place (prefilledPlace cfg.trace i place) := by
  obtain ⟨w, world', hcomplete, hw, hend, hfirst⟩ := (h.stands.prefill i).complete cfg.prefill i
    world fun r _ => h.stands.definition r
  have hlists := (h.stands.prefill i).prefilling.congr fun r => PdPlace.prefillView_eq_prefilling
  set requests := ((prefill i).kv.partitions 0).prefillAdmits with hrequests
  have hprefilled : ∀ r, place r = .prefilling i → prefilledPlace cfg.trace i place r =
      if (cfg.trace r).targetOutputTokens ≤ 1 then .done none else .announced i := fun r hr =>
    if_pos hr
  have hother : ∀ r, place r ≠ .prefilling i → prefilledPlace cfg.trace i place r = place r :=
    fun r hr => if_neg hr
  have hkept : ∀ r, place r ≠ .prefilling i → world'.requests r = world.requests r := fun r hr =>
    hfirst.others r fun hm => hr ((hlists.mem_iff r).mp hm)
  -- the requests of the batch finish or are announced, and nobody else moves
  have hstep : ∀ r, prefilledPlace cfg.trace i place r = place r ∨
      PdPlace.PrefillStep i (place r) (prefilledPlace cfg.trace i place r) := by
    intro r
    by_cases hr : place r = .prefilling i
    · rw [hprefilled r hr, hr]
      split
      · exact .inr .finish
      · exact .inr .announce
    · exact .inl (hother r hr)
  refine ⟨w, world', _, hcomplete, hend, ⟨h.stands.prefillMove ?_ hstep
    (fun r holder j p hr => hkept r (by rw [hr]; simp)) (fun r => ?_)
    (fun r => (hfirst.definition r).trans (h.stands.definition r)) fun r => ?_, ?_⟩,
    .of_prefill hstep⟩
  · have hview : finishedView cfg.trace (fun r => (place r).prefillView i) =
        fun r => (prefilledPlace cfg.trace i place r).prefillView i := by
      funext r
      rw [finishedView]
      by_cases hr : place r = .prefilling i
      · rw [if_pos (PdPlace.prefillView_eq_prefilling.mpr hr), hprefilled r hr]
        split <;> simp [PdPlace.prefillView]
      · rw [if_neg fun hview => hr (PdPlace.prefillView_eq_prefilling.mp hview), hother r hr]
    rw [← hview]
    exact hw
  · rw [hfirst.arrived, h.stands.arrived]
    by_cases hr : place r = .prefilling i
    · rw [hprefilled r hr, hr]
      split <;> simp
    · rw [hother r hr]
  · by_cases hr : place r = .prefilling i
    · have hemitted := hfirst.emitted r ((hlists.mem_iff r).mpr hr)
      have htarget : (world'.requests r).targetOutputTokens = (cfg.trace r).targetOutputTokens :=
        congrArg RequestRecord.Definition.targetOutputTokens
          ((hfirst.definition r).trans (h.stands.definition r))
      rw [hprefilled r hr]
      split
      · rw [PdPlace.Progress, hemitted, htarget]
        omega
      · rw [PdPlace.Progress, RequestRecord.remainingOutputTokens, hemitted, htarget]
        omega
    · rw [hother r hr, hkept r hr]
      exact h.stands.progress r
  · have hdone : ∀ r, place r = .prefilling i → ¬ ∃ holder, place r = .done holder := by
      rintro r hr ⟨holder, hd⟩
      rw [hr] at hd
      cases hd
    have hsame : ∀ r p, p ≠ .prefilling i → place r = p →
        prefilledPlace cfg.trace i place r = p := fun r p hp hr => by
      rw [hother r (hr ▸ hp), hr]
    have hack : ∀ r, (prefilledPlace cfg.trace i place r).ack = (place r).ack := by
      intro r
      by_cases hr : place r = .prefilling i
      · rw [hprefilled r hr, hr]
        split <;> rfl
      · rw [hother r hr]
    -- each request that left sent exactly one notice
    have hmember : ∀ notice ∈ (requests.map (finishedEvent cfg.prefill i cfg.trace)).map
        PdPrefillEvent.notice, ∃ r, place r = .prefilling i ∧
          notice = if (cfg.trace r).targetOutputTokens ≤ 1 then .finished r
            else .announced r i (cfg.trace r).contextTokens := by
      intro notice hm
      obtain ⟨event, he, rfl⟩ := List.mem_map.mp hm
      obtain ⟨r, hr, rfl⟩ := List.mem_map.mp he
      refine ⟨r, (hlists.mem_iff r).mp hr, ?_⟩
      rw [finishedEvent]
      split <;> rfl
    refine h.noted.push ?_ (fun r holder hr => ⟨holder, hsame r _ (by simp) hr⟩) ?_
      (fun r i' hr => hsame r _ (by simp) hr) (fun r i' kvTokens hm => ?_) ?_
      (fun r i' hr => (hack r).trans hr) fun r i' hm => ?_
    · rw [filterMap_finishedRequest]
      refine (hlists.filter _).congr fun r => ?_
      by_cases hr : place r = .prefilling i
      · rw [hprefilled r hr]
        simp only [hr, true_and, decide_eq_true_eq]
        split <;> simp_all
      · simp [hr, hother r hr]
    · rw [filterMap_announcedRequest]
      refine (hlists.filter _).congr fun r => ?_
      by_cases hr : place r = .prefilling i
      · rw [hprefilled r hr]
        simp only [hr, true_and, decide_eq_true_eq]
        split <;> simp_all
      · simp [hr, hother r hr]
    · obtain ⟨s, hs, hnotice⟩ := hmember _ hm
      split at hnotice
      · cases hnotice
      · rename_i htarget
        cases hnotice
        exact ⟨(hprefilled r hs).trans (if_neg htarget), rfl⟩
    · have hnone : ((requests.map (finishedEvent cfg.prefill i cfg.trace)).map
          PdPrefillEvent.notice).filterMap PdNotice.landedRequest = [] := by
        rw [List.filterMap_eq_nil_iff]
        intro notice hm
        obtain ⟨r, -, rfl⟩ := hmember notice hm
        split <;> rfl
      rw [hnone]
      exact .nil fun r hr => hr.2 (hack r ▸ hr.1)
    · obtain ⟨s, -, hnotice⟩ := hmember _ hm
      split at hnotice <;> cases hnotice

theorem prefillStart (h : PdSound cfg prefill decode world notices completed place) (i : Fin m)
    (hidle : (prefill i).computeEnd = none) (now : Time) :
    EndsWith cfg.Panics ((prefill i).startBatch cfg.prefill i world now) ∨
    ∃ (w : PdPrefillWorker P prefillAcc) (world' : World) (place' : RequestId → PdPlace m k n),
      (prefill i).startBatch cfg.prefill i world now = .ok (w, world') ∧
      PdSound cfg (Function.update prefill i w) decode world' notices completed place' ∧
      PdPlace.Moves place place' := by
  rcases (h.stands.prefill i).start cfg.prefill i world
    hidle (fun r hr => by
      have hprogress := h.stands.progress r
      rw [PdPlace.prefillView_eq_waiting.mp hr] at hprogress
      exact ⟨h.stands.definition r, hprogress.2⟩) now with hfail | ⟨w, world', hstart, hmoved⟩
  · exact .inl (hfail.mono fun message => .inl)
  refine .inr ?_
  rcases hmoved with ⟨hw, rfl⟩ | ⟨r, record, hr, hw, hdefinition, hemitted, rfl⟩
  · exact ⟨w, world', place, hstart, ⟨h.stands.prefillMove hw (fun r => .inl rfl)
      (fun r holder j p hr => rfl) h.stands.arrived h.stands.definition h.stands.progress,
      h.noted⟩, .refl place⟩
  · have hplace : place r = .waiting i := PdPlace.prefillView_eq_waiting.mp hr
    have hprogress := h.stands.progress r
    rw [hplace] at hprogress
    have hstep := PdPlace.update_step (show PdPlace.PrefillStep i (place r) (.prefilling i) from
      hplace ▸ .enter)
    refine ⟨w, _, Function.update place r (.prefilling i), hstart, ⟨h.stands.prefillMove ?_ hstep
      (fun s holder j p hs => ?_) (fun s => ?_) (fun s => ?_) fun s => ?_,
      h.noted.stillOne (by simp [hplace]) (by simp [hplace]) (by rw [hplace]; rfl)⟩,
      .of_prefill hstep⟩
    · rw [view_update]
      simpa [PdPlace.prefillView] using hw
    · refine world.modifyRequest_of_ne (fun hsr => ?_) _
      rw [hsr, hplace] at hs
      cases hs
    · rw [World.modifyRequest_arrived, h.stands.arrived]
      by_cases hs : s = r
      · subst hs
        simp [hplace]
      · simp [hs]
    · by_cases hs : s = r
      · subst hs
        rw [World.modifyRequest_self, hdefinition]
        exact h.stands.definition s
      · rw [World.modifyRequest_of_ne _ hs]
        exact h.stands.definition s
    · by_cases hs : s = r
      · subst hs
        rw [Function.update_self, World.modifyRequest_self]
        exact hemitted.trans hprogress.1
      · rw [Function.update_of_ne hs, World.modifyRequest_of_ne _ hs]
        exact h.stands.progress s

theorem letGo {i : Fin m}
    (h : PdSound cfg prefill decode world (.landed r i :: notices) completed place) :
    ∃ w : PdPrefillWorker P prefillAcc,
      (prefill i).acceptMessage world (.releaseKv r) = .ok (w, world) ∧
      PdSound cfg (Function.update prefill i w) decode world notices completed
        (Function.update place r (place r).acknowledged) ∧
      PdPlace.Moves place (Function.update place r (place r).acknowledged) := by
  have hack : (place r).ack = some i := h.noted.landedBy r i List.mem_cons_self
  have hview : (place r).prefillView i = .held := by
    cases hp : place r <;> rw [hp] at hack <;> simp_all [PdPlace.ack, PdPlace.prefillView]
  have hgone : (place r).acknowledged.prefillView i = .elsewhere := by
    cases hp : place r <;> rw [hp] at hack <;>
      simp_all [PdPlace.ack, PdPlace.acknowledged, PdPlace.prefillView]
  have hnone : (place r).acknowledged.ack = none := by
    cases place r <;> rfl
  have hdone : (∃ holder, (place r).acknowledged = .done holder) ↔
      ∃ holder, place r = .done holder := by
    cases place r <;> simp [PdPlace.acknowledged]
  have hannounced : ∀ i', (place r).acknowledged = .announced i' ↔ place r = .announced i' := by
    intro i'
    cases place r <;> simp [PdPlace.acknowledged]
  obtain ⟨w, hrelease, hw, -⟩ := (h.stands.prefill i).letGo hview world
  have hlanded : Lists (r :: notices.filterMap PdNotice.landedRequest) _ := h.noted.landed
  have hstep := PdPlace.update_step (PdPlace.PrefillStep.letGo hack)
  refine ⟨w, hrelease, ⟨h.stands.prefillMove ?_ hstep (fun s holder j p hs => rfl)
    (fun s => ?_) h.stands.definition fun s => ?_, ?_⟩, .of_prefill hstep⟩
  · rw [view_update, hgone]
    exact hw
  · rw [h.stands.arrived]
    by_cases hs : s = r
    · subst hs
      rw [Function.update_self]
      cases place s <;> simp [PdPlace.acknowledged]
    · rw [Function.update_of_ne hs]
  · by_cases hs : s = r
    · subst hs
      rw [Function.update_self, PdPlace.progress_acknowledged]
      exact h.stands.progress s
    · rw [Function.update_of_ne hs]
      exact h.stands.progress s
  · refine ⟨?_, ?_, fun s i' kvTokens hm => ?_,
      hlanded.leave (R := fun p : PdPlace m k n => p.ack.isSome) (by simp [hnone]),
      fun s i' hm => ?_⟩
    · have hfinished := h.noted.finished
      rw [List.filterMap_cons_none rfl] at hfinished
      exact hfinished.stay (R := fun p => ∃ holder, p = PdPlace.done holder) hdone
    · have hnoted := h.noted.announced
      rw [List.filterMap_cons_none rfl] at hnoted
      exact hnoted.stay (R := fun p => ∃ i, p = PdPlace.announced i) (exists_congr hannounced)
    · obtain ⟨hs, htokens⟩ := h.noted.announcedBy s i' kvTokens (List.mem_cons_of_mem _ hm)
      refine ⟨?_, htokens⟩
      by_cases hsr : s = r
      · subst hsr
        rw [Function.update_self, hannounced]
        exact hs
      · rw [Function.update_of_ne hsr, hs]
    · have hs := h.noted.landedBy s i' (List.mem_cons_of_mem _ hm)
      -- the notice of `r` was the only one of its landing
      have hsr : s ≠ r := by
        rintro rfl
        refine (List.nodup_cons.mp hlanded.nodup).1 ?_
        exact List.mem_filterMap.mpr ⟨_, hm, rfl⟩
      rw [Function.update_of_ne hsr, hs]

theorem reported
    (h : PdSound cfg prefill decode world (.finished r :: notices) completed place) :
    PdSound cfg prefill decode world notices (completed ++ [r]) place where
  stands := h.stands
  noted :=
    { finished := by
        have hfinished :
          Lists (completed ++ r :: notices.filterMap PdNotice.finishedRequest) _ := h.noted.finished
        rwa [List.append_assoc]
      announced := by
        have hannounced := h.noted.announced
        rwa [List.filterMap_cons_none rfl] at hannounced
      announcedBy := fun s i kvTokens hm =>
        h.noted.announcedBy s i kvTokens (List.mem_cons_of_mem _ hm)
      landed := by
        have hlanded := h.noted.landed
        rwa [List.filterMap_cons_none rfl] at hlanded
      landedBy := fun s i hm => h.noted.landedBy s i (List.mem_cons_of_mem _ hm) }

/-! ## The decode side -/

variable {view' : RequestId → DecodeView m n}

theorem decodeMove (h : PdStands cfg prefill decode world place) {j : Fin k} {world' : World}
    {w : PullDecodeWorker decodeAcc m n}
    (hw : DecodeStands cfg.trace world'.requests cfg.decode.pullBudgetTokens w view')
    (hstep : ∀ r, view' r = (place r).decodeView j ∨
      PdPlace.DecodeStep j (place r) ((place r).follow j (view' r)))
    (hrecords : ∀ r holder j' p, j' ≠ j → place r = .decoding holder j' p →
      world'.requests r = world.requests r)
    (harrived : world'.arrived = world.arrived)
    (hdefinition : ∀ r, (world'.requests r).definition = (world.requests r).definition)
    (hprogress : ∀ r, ((place r).follow j (view' r)).Progress (world'.requests r)) :
    PdStands cfg prefill (Function.update decode j w) world'
      fun r => (place r).follow j (view' r) := by
  refine h.decodeMove ?_ (fun r => ?_) hrecords harrived hdefinition hprogress
  · simpa using hw
  · rcases hstep r with hsame | hstep
    · exact .inl (PdPlace.follow_of_eq hsame.symm)
    · exact .inr hstep

theorem handoff {i : Fin m} {kvTokens : Nat}
    (h : PdSound cfg prefill decode world (.announced r i kvTokens :: notices) completed place)
    (j : Fin k) (sendGid : Nat) :
    PdSound cfg prefill (Function.update decode j
        ((decode j).enqueue cfg.decode j world (.handoff r sendGid kvTokens i))) world notices
      completed (Function.update place r (.queued i j)) ∧
      PdPlace.Moves place (Function.update place r (.queued i j)) := by
  obtain ⟨hplace, rfl⟩ := h.noted.announcedBy r i kvTokens List.mem_cons_self
  have hw := (h.stands.decode j).handoff cfg.decode j world (r := r) (by rw [hplace]; rfl) sendGid i
  have hannounced : Lists (r :: notices.filterMap PdNotice.announcedRequest) _ := h.noted.announced
  have hprogress := h.stands.progress r
  rw [hplace] at hprogress
  have hstep := PdPlace.update_step (show PdPlace.DecodeStep j (place r) (.queued i j) from
    hplace ▸ .handoff i)
  refine ⟨⟨h.stands.decodeMove ?_ hstep (fun s holder j' p _ hs => rfl) rfl (fun s => rfl)
    fun s => ?_, ?_⟩, .of_decode hstep⟩
  · rw [view_update]
    simpa [PdPlace.decodeView] using hw
  · by_cases hs : s = r
    · subst hs
      rw [Function.update_self]
      exact hprogress
    · rw [Function.update_of_ne hs]
      exact h.stands.progress s
  · refine ⟨?_, hannounced.leave (R := fun p => ∃ i, p = PdPlace.announced i) (by simp),
      fun s i' kvTokens hm => ?_, ?_, fun s i' hm => ?_⟩
    · have hfinished := h.noted.finished
      rw [List.filterMap_cons_none rfl] at hfinished
      exact hfinished.stay (R := fun p => ∃ holder, p = PdPlace.done holder) (by simp [hplace])
    · obtain ⟨hs, htokens⟩ := h.noted.announcedBy s i' kvTokens (List.mem_cons_of_mem _ hm)
      have hsr : s ≠ r := by
        rintro rfl
        refine (List.nodup_cons.mp hannounced.nodup).1 ?_
        exact List.mem_filterMap.mpr ⟨_, hm, rfl⟩
      exact ⟨by rw [Function.update_of_ne hsr, hs], htokens⟩
    · have hlanded := h.noted.landed
      rw [List.filterMap_cons_none rfl] at hlanded
      exact hlanded.stay (R := fun p : PdPlace m k n => p.ack.isSome) (by
        rw [hplace]
        rfl)
    · have hs := h.noted.landedBy s i' (List.mem_cons_of_mem _ hm)
      have hsr : s ≠ r := by
        rintro rfl
        rw [hplace] at hs
        cases hs
      rw [Function.update_of_ne hsr, hs]

theorem moves_of_follow {j : Fin k}
    (hstep : ∀ r, view' r = (place r).decodeView j ∨
      PdPlace.DecodeStep j (place r) ((place r).follow j (view' r))) :
    PdPlace.Moves place fun r => (place r).follow j (view' r) :=
  .of_decode fun r => (hstep r).imp_left fun hsame => PdPlace.follow_of_eq hsame.symm

theorem pull_cases {j : Fin k}
    {landed : List (RequestId × Fin m)}
    (h : PullMoves (fun r => (place r).decodeView j) view' landed) (r : RequestId) :
    (r ∉ landed.map Prod.fst ∧ view' r = (place r).decodeView j) ∨
      (r ∉ landed.map Prod.fst ∧ ∃ i, place r = .queued i j ∧
        (place r).follow j (view' r) = .pulling i j) ∨
      ∃ i, (r, i) ∈ landed ∧ (place r = .queued i j ∨ place r = .pulling i j) ∧
        (place r).follow j (view' r) = .landed (some i) j := by
  by_cases hr : r ∈ landed.map Prod.fst
  · obtain ⟨e, he, rfl⟩ := List.mem_map.mp hr
    obtain ⟨hsource, hlanded⟩ := h.named e he
    refine .inr (.inr ⟨e.2, he, ?_⟩)
    cases hview : (place e.1).decodeView j with
    | queued i =>
      rw [hview] at hsource
      cases hsource
      rw [hlanded, PdPlace.follow, hview, if_neg (by simp)]
      exact ⟨.inl (PdPlace.decodeView_eq_queued.mp hview), rfl⟩
    | pulling i =>
      rw [hview] at hsource
      cases hsource
      rw [hlanded, PdPlace.follow, hview, if_neg (by simp)]
      exact ⟨.inr (PdPlace.decodeView_eq_pulling.mp hview), rfl⟩
    | _ =>
      rw [hview] at hsource
      cases hsource
  · rcases h.others r hr with hsame | ⟨i, hi, hi'⟩
    · exact .inl ⟨hr, hsame⟩
    · refine .inr (.inl ⟨hr, i, PdPlace.decodeView_eq_queued.mp hi, ?_⟩)
      rw [hi', PdPlace.follow, hi, if_neg (by simp)]

theorem pulls (h : PdSound cfg prefill decode world notices completed place) (j : Fin k)
    (now : Time) :
    ∃ (pulls : PullPipeline m) (world' : World) (events : List (PdDecodeEvent m k))
      (place' : RequestId → PdPlace m k n),
      (decode j).advancePulls cfg.decode j world now =
        ({ decode j with pulls := pulls }, world', events) ∧
      PdSound cfg prefill (Function.update decode j { decode j with pulls := pulls }) world'
        (notices ++ events.map PdDecodeEvent.notice) completed place' ∧
      PdPlace.Moves place place' ∧
      (pulls.inFlight = none → pulls.pendingPulls ≠ [] → pulls.pendingDecodes ≠ []) := by
  obtain ⟨pulls, cluster, landed, view', hloop, hw, hmoves, hstalled⟩ :=
    (h.stands.decode j).advanceLoop_spec cfg.decode j now _ world.cluster
      (Nat.lt_succ_self _)
  set place' : RequestId → PdPlace m k n := fun r => (place r).follow j (view' r) with hplace'
  -- a request stays, is submitted to its link, or lands
  have hcases : ∀ r, (r ∉ landed.map Prod.fst ∧ place' r = place r) ∨
      (r ∉ landed.map Prod.fst ∧ ∃ i, place r = .queued i j ∧ place' r = .pulling i j) ∨
      ∃ i, (r, i) ∈ landed ∧ (place r = .queued i j ∨ place r = .pulling i j) ∧
        place' r = .landed (some i) j := fun r =>
    (pull_cases hmoves r).imp_left fun hsame => ⟨hsame.1, PdPlace.follow_of_eq hsame.2.symm⟩
  have hevents : ((landed.map (landedEvent j)).map PdDecodeEvent.notice) =
      landed.map fun e => PdNotice.landed e.1 e.2 := by
    rw [List.map_map]
    rfl
  have hstep : ∀ r, view' r = (place r).decodeView j ∨
      PdPlace.DecodeStep j (place r) ((place r).follow j (view' r)) := by
    intro r
    rcases pull_cases hmoves r with hsame | ⟨-, i, hr, hr'⟩ | ⟨i, -, hr | hr, hr'⟩
    · exact .inl hsame.2
    · rw [hr', hr]
      exact .inr (.submit i)
    · rw [hr', hr]
      exact .inr (.fetch i)
    · rw [hr', hr]
      exact .inr (.land i)
  refine ⟨pulls, { world with cluster := cluster }, landed.map (landedEvent j), place', ?_,
    ⟨decodeMove h.stands hw hstep (fun r holder j' p _ hr => rfl) rfl (fun r => rfl)
      fun r => ?_, h.noted.push ?_ (fun r holder hr => ?_) ?_ (fun r i hr => ?_)
      (fun r i kvTokens hm => ?_) ?_ (fun r i hr => ?_) fun r i hm => ?_⟩, moves_of_follow hstep,
    hstalled⟩
  · rw [advancePulls, hloop]
  · have hprogress := h.stands.progress r
    change (place' r).Progress (world.requests r)
    rcases hcases r with ⟨-, hsame⟩ | ⟨-, i, hr, hr'⟩ | ⟨i, -, hr | hr, hr'⟩
    · rwa [hsame]
    · rw [hr] at hprogress
      rw [hr']
      exact hprogress
    · rw [hr] at hprogress
      rw [hr']
      exact hprogress
    · rw [hr] at hprogress
      rw [hr']
      exact hprogress
  · rw [hevents, filterMap_map_eq_nil fun e => rfl]
    refine .nil fun r hr => hr.2 ?_
    obtain ⟨⟨holder, hr⟩, -⟩ := hr
    rcases hcases r with ⟨-, hsame⟩ | ⟨-, i, -, hr'⟩ | ⟨i, -, -, hr'⟩
    · exact ⟨holder, hsame ▸ hr⟩
    · rw [hr'] at hr
      cases hr
    · rw [hr'] at hr
      cases hr
  · rcases hcases r with ⟨-, hsame⟩ | ⟨-, i, hr', -⟩ | ⟨i, -, hr' | hr', -⟩
    · exact ⟨holder, hsame.trans hr⟩
    all_goals
      rw [hr] at hr'
      cases hr'
  · rw [hevents, filterMap_map_eq_nil fun e => rfl]
    refine .nil fun r hr => hr.2 ?_
    obtain ⟨⟨i', hr⟩, -⟩ := hr
    rcases hcases r with ⟨-, hsame⟩ | ⟨-, i, -, hr'⟩ | ⟨i, -, -, hr'⟩
    · exact ⟨i', hsame ▸ hr⟩
    · rw [hr'] at hr
      cases hr
    · rw [hr'] at hr
      cases hr
  · rcases hcases r with ⟨-, hsame⟩ | ⟨-, i, hr', -⟩ | ⟨i, -, hr' | hr', -⟩
    · exact hsame.trans hr
    all_goals
      rw [hr] at hr'
      cases hr'
  · rw [hevents] at hm
    obtain ⟨e, -, he⟩ := List.mem_map.mp hm
    cases he
  · rw [hevents, filterMap_map_eq_map (g := PdNotice.landedRequest) (h := Prod.fst) fun e => rfl]
    refine ⟨hmoves.nodup, fun r => ?_⟩
    rcases hcases r with ⟨hnot, hsame⟩ | ⟨hnot, i, hr, hr'⟩ | ⟨i, hmem, hr, hr'⟩
    · simp only [hnot, hsame, false_iff]
      exact fun hack => hack.2 hack.1
    · simp only [hnot, hr', false_iff]
      intro hack
      cases hack.1
    · refine ⟨fun _ => ⟨by rw [hr']; rfl, ?_⟩, fun _ => List.mem_map.mpr ⟨_, hmem, rfl⟩⟩
      rcases hr with hr | hr <;> rw [hr] <;> simp [PdPlace.ack]
  · rcases hcases r with ⟨-, hsame⟩ | ⟨-, i', hr', -⟩ | ⟨i', -, hr' | hr', -⟩
    · rw [hsame, hr]
    all_goals
      rw [hr'] at hr
      cases hr
  · rw [hevents] at hm
    obtain ⟨e, he, hnotice⟩ := List.mem_map.mp hm
    cases hnotice
    rcases hcases e.1 with ⟨hnot, -⟩ | ⟨hnot, -⟩ | ⟨i', hmem, -, hr'⟩
    · exact absurd (List.mem_map_of_mem he) hnot
    · exact absurd (List.mem_map_of_mem he) hnot
    · rw [hr']
      -- the loop lands nobody twice, so the notice names the source it came from
      have hsame : e = (e.1, i') := List.inj_on_of_nodup_map hmoves.nodup he hmem rfl
      rw [hsame]
      rfl

/-! ## A completed decode iteration -/

/-- Where a request is once the iteration of decode worker `j` is complete. -/
def decodedPlace (requests : RequestId → RequestRecord) (j : Fin k)
    (place : RequestId → PdPlace m k n) (r : RequestId) : PdPlace m k n :=
  (place r).follow j (emittedView requests (fun _ => True) (fun r => (place r).decodeView j) r)

theorem decodedPlace_cases (requests : RequestId → RequestRecord) (j : Fin k)
    (place : RequestId → PdPlace m k n) (r : RequestId) :
    (decodedPlace requests j place r = place r ∧
        emittedView requests (fun _ => True) (fun r => (place r).decodeView j) r =
          (place r).decodeView j ∧ ∀ holder p, place r ≠ .decoding holder j p) ∨
      ∃ holder p, place r = .decoding holder j p ∧ ((requests r).recordToken.isComplete = true ∧
            decodedPlace requests j place r = .done holder ∨
          ¬ (requests r).recordToken.isComplete = true ∧ decodedPlace requests j place r = place r ∧
            emittedView requests (fun _ => True) (fun r => (place r).decodeView j) r =
              (place r).decodeView j) := by
  by_cases hr : ∃ p, (place r).decodeView j = .decoding p
  · obtain ⟨p, hp⟩ := hr
    obtain ⟨holder, hholder⟩ := PdPlace.decodeView_eq_decoding.mp hp
    refine .inr ⟨holder, p, hholder, ?_⟩
    have hemitted : emittedView requests (fun _ => True) (fun r => (place r).decodeView j) r =
        if True ∧ (requests r).recordToken.isComplete then .elsewhere else .decoding p :=
      emittedView_decoding hp
    by_cases hdone : (requests r).recordToken.isComplete = true
    · rw [if_pos ⟨trivial, hdone⟩] at hemitted
      refine .inl ⟨hdone, ?_⟩
      rw [decodedPlace, hemitted, PdPlace.follow, hp, if_neg (by simp), hholder]
      rfl
    · rw [if_neg fun hd => hdone hd.2] at hemitted
      have hsame := hemitted.trans hp.symm
      exact .inr ⟨hdone, PdPlace.follow_of_eq hsame.symm, hsame⟩
  · have hsame : emittedView requests (fun _ => True) (fun r => (place r).decodeView j) r =
        (place r).decodeView j := emittedView_of_not_decoding (not_exists.mp hr)
    refine .inl ⟨PdPlace.follow_of_eq hsame.symm, hsame, fun holder p hp => hr ⟨p, ?_⟩⟩
    exact PdPlace.decodeView_eq_decoding.mpr ⟨holder, hp⟩

theorem progress_decoded {j : Fin k} {place : RequestId → PdPlace m k n} {world' : World}
    (hprogress : ∀ r, (place r).Progress (world.requests r))
    (hother : ∀ r, (∀ holder p, place r ≠ .decoding holder j p) →
      world'.requests r = world.requests r)
    (hemit : ∀ r holder p, place r = .decoding holder j p →
      world'.requests r = (world.requests r).recordToken) (r : RequestId) :
    (decodedPlace world.requests j place r).Progress (world'.requests r) := by
  have hprogress := hprogress r
  rcases decodedPlace_cases world.requests j place r with ⟨hsame, -, hnot⟩ |
    ⟨holder, p, hr, ⟨hdone, hr'⟩ | ⟨hlive, hsame, -⟩⟩
  · rw [hsame, hother r hnot]
    exact hprogress
  · rw [hr] at hprogress
    obtain ⟨hemitted, hpos⟩ := hprogress
    rw [RequestRecord.isComplete_recordToken] at hdone
    rw [hr', hemit r holder p hr, PdPlace.Progress, RequestRecord.outputTokensEmitted_recordToken,
      RequestRecord.targetOutputTokens_recordToken]
    rw [RequestRecord.remainingOutputTokens] at hdone hpos
    omega
  · rw [hr] at hprogress
    obtain ⟨hemitted, hpos⟩ := hprogress
    rw [RequestRecord.isComplete_recordToken] at hlive
    rw [hsame, hr, hemit r holder p hr, PdPlace.Progress,
      RequestRecord.outputTokensEmitted_recordToken,
      RequestRecord.remainingOutputTokens_recordToken]
    omega

theorem noted_decoded (h : PdNoted cfg.trace place notices completed)
    (requests : RequestId → RequestRecord) (j : Fin k) {finished : List RequestId}
    (hlists : Lists finished fun r => (∃ holder p, place r = .decoding holder j p) ∧
      (requests r).recordToken.isComplete = true) :
    PdNoted cfg.trace (decodedPlace requests j place)
      (notices ++ (finished.map (PdDecodeEvent.requestComplete (m := m) j)).map
        PdDecodeEvent.notice) completed := by
  have hevents : (finished.map (PdDecodeEvent.requestComplete (m := m) j)).map
      PdDecodeEvent.notice = finished.map PdNotice.finished := by
    rw [List.map_map]
    rfl
  have hcases := decodedPlace_cases requests j place
  rw [hevents]
  -- the step only tells who finished; announcements and landings stay as they were
  refine h.push ?_ (fun r holder hr => ?_) ?_ (fun r i hr => ?_) (fun r i kvTokens hm => ?_) ?_
    (fun r i hr => ?_) fun r i hm => ?_
  · rw [filterMap_map_eq_map (g := PdNotice.finishedRequest) (h := id) fun e => rfl, List.map_id]
    refine hlists.congr fun r => ?_
    rcases hcases r with ⟨hsame, -, hnot⟩ | ⟨holder, p, hr, ⟨hdone, hr'⟩ | ⟨hlive, hsame, -⟩⟩
    · rw [hsame]
      refine ⟨fun hd => ?_, fun hd => absurd hd.1 hd.2⟩
      obtain ⟨⟨holder, p, hp⟩, -⟩ := hd
      exact absurd hp (hnot holder p)
    · refine ⟨fun _ => ⟨⟨holder, hr'⟩, by rw [hr]; simp⟩, fun _ => ⟨⟨holder, p, hr⟩, hdone⟩⟩
    · rw [hsame]
      exact ⟨fun hd => absurd hd.2 hlive, fun hd => absurd hd.1 hd.2⟩
  · rcases hcases r with ⟨hsame, -⟩ | ⟨holder', p, hr', -⟩
    · exact ⟨holder, hsame.trans hr⟩
    · rw [hr] at hr'
      cases hr'
  · rw [filterMap_map_eq_nil fun e => rfl]
    refine .nil fun r hr => hr.2 ?_
    obtain ⟨⟨i, hr⟩, -⟩ := hr
    rcases hcases r with ⟨hsame, -⟩ | ⟨holder, p, -, ⟨-, hr'⟩ | ⟨-, hsame, -⟩⟩
    · exact ⟨i, hsame ▸ hr⟩
    · rw [hr'] at hr
      cases hr
    · exact ⟨i, hsame ▸ hr⟩
  · rcases hcases r with ⟨hsame, -⟩ | ⟨holder, p, hr', -⟩
    · exact hsame.trans hr
    · rw [hr] at hr'
      cases hr'
  · obtain ⟨e, -, he⟩ := List.mem_map.mp hm
    cases he
  · rw [filterMap_map_eq_nil fun e => rfl]
    refine .nil fun r hr => hr.2 ?_
    rcases hcases r with ⟨hsame, -⟩ | ⟨holder, p, hr', ⟨-, hr''⟩ | ⟨-, hsame, -⟩⟩
    · exact hsame ▸ hr.1
    · rw [hr''] at hr
      rw [hr']
      exact hr.1
    · exact hsame ▸ hr.1
  · rcases hcases r with ⟨hsame, -⟩ | ⟨holder, p, hr', ⟨-, hr''⟩ | ⟨-, hsame, -⟩⟩
    · rw [hsame, hr]
    · rw [hr'] at hr
      rw [hr'']
      exact hr
    · rw [hsame, hr]
  · obtain ⟨e, -, he⟩ := List.mem_map.mp hm
    cases he

theorem decodeComplete (h : PdSound cfg prefill decode world notices completed place)
    (j : Fin k) :
    EndsWith cfg.Panics ((decode j).completeIteration j world) ∨
    ∃ (w : PullDecodeWorker decodeAcc m n) (world' : World) (events : List (PdDecodeEvent m k))
      (place' : RequestId → PdPlace m k n),
      (decode j).completeIteration j world = .ok (w, world', events) ∧
      w.computeEnd = none ∧ w.pulls = (decode j).pulls ∧
      PdSound cfg prefill (Function.update decode j w) world'
        (notices ++ events.map PdDecodeEvent.notice) completed place' ∧
      PdPlace.Moves place place' := by
  rcases (h.stands.decode j).complete j with hfail | ⟨kv, world', finished, hcomplete, hw, hnext,
    hlists⟩
  · exact .inl (hfail.mono fun message => .inr)
  have hlists' : Lists finished fun r => (∃ holder p, place r = .decoding holder j p) ∧
      (world.requests r).recordToken.isComplete = true := by
    refine hlists.congr fun r => and_congr_left fun _ => ?_
    rw [exists_comm]
    exact exists_congr fun p => PdPlace.decodeView_eq_decoding
  have hother : ∀ r, (∀ holder p, place r ≠ .decoding holder j p) →
      world'.requests r = world.requests r := fun r hr => hnext.others r fun ⟨p, hp⟩ => by
    obtain ⟨holder, hholder⟩ := PdPlace.decodeView_eq_decoding.mp hp
    exact hr holder p hholder
  have hemit : ∀ r holder p, place r = .decoding holder j p →
      world'.requests r = (world.requests r).recordToken := fun r holder p hr =>
    hnext.emitted r ⟨p, PdPlace.decodeView_eq_decoding.mpr ⟨holder, hr⟩⟩
  have hstep : ∀ r, emittedView world.requests (fun _ => True) (fun r => (place r).decodeView j) r =
        (place r).decodeView j ∨
      PdPlace.DecodeStep j (place r) ((place r).follow j
        (emittedView world.requests (fun _ => True) (fun r => (place r).decodeView j) r)) := by
    intro r
    rcases decodedPlace_cases world.requests j place r with ⟨-, hsame, -⟩ |
      ⟨holder, p, hr, ⟨-, hr'⟩ | ⟨-, -, hsame⟩⟩
    · exact .inl hsame
    · rw [decodedPlace] at hr'
      rw [hr', hr]
      exact .inr (.finish holder p)
    · exact .inl hsame
  refine .inr ⟨{ decode j with kv := kv, computeEnd := none }, world',
    finished.map (.requestComplete j), decodedPlace world.requests j place, hcomplete, rfl, rfl,
    ⟨decodeMove h.stands hw hstep (fun r holder j' p hj hr => ?_) hnext.arrived (fun r => ?_)
      (progress_decoded h.stands.progress hother hemit), noted_decoded h.noted _ j hlists'⟩,
    moves_of_follow hstep⟩
  · refine hother r fun holder' p' hr' => hj ?_
    rw [hr] at hr'
    cases hr'
    rfl
  · by_cases hr : ∃ holder p, place r = .decoding holder j p
    · obtain ⟨holder, p, hr⟩ := hr
      rw [hemit r holder p hr, RequestRecord.definition_recordToken]
    · rw [hother r fun holder p hp => hr ⟨holder, p, hp⟩]

theorem decodeStart (h : PdSound cfg prefill decode world notices completed place) (j : Fin k)
    (now : Time) :
    ∃ (w : PullDecodeWorker decodeAcc m n) (place' : RequestId → PdPlace m k n),
      (decode j).startBatch cfg.decode j world now = .ok w ∧
      PdSound cfg prefill (Function.update decode j w) world notices completed place' ∧
      PdPlace.Moves place place' ∧
      (w.computeEnd = none → w.pulls = (decode j).pulls ∧
        ∀ r p, (place' r).decodeView j ≠ .decoding p) := by
  obtain ⟨w, view', hstart, hw, hmoved, hrest⟩ := (h.stands.decode j).start cfg.decode j
    world (fun r hr => by
      obtain ⟨holder, hplace⟩ := PdPlace.decodeView_eq_landed.mp hr
      have hprogress := h.stands.progress r
      rw [hplace] at hprogress
      exact hprogress) now
  set place' : RequestId → PdPlace m k n := fun r => (place r).follow j (view' r) with hplace'
  -- one landed request enters at most; the others keep their places
  have hcases : ∀ r, (place' r = place r ∧ view' r = (place r).decodeView j) ∨
      ∃ holder p, place r = .landed holder j ∧
        (place r).follow j (view' r) = .decoding holder j p := by
    intro r
    rcases hmoved with hsame | ⟨s, p, hs, hview⟩
    · have hr : view' r = (place r).decodeView j := congrFun hsame r
      exact .inl ⟨PdPlace.follow_of_eq hr.symm, hr⟩
    · by_cases hrs : r = s
      · subst hrs
        obtain ⟨holder, hplace⟩ := PdPlace.decodeView_eq_landed.mp hs
        refine .inr ⟨holder, p, hplace, ?_⟩
        rw [hview, Function.update_self, PdPlace.follow, hs, if_neg (by simp), hplace]
        rfl
      · have hr : view' r = (place r).decodeView j := by
          rw [hview, Function.update_of_ne hrs]
        exact .inl ⟨PdPlace.follow_of_eq hr.symm, hr⟩
  have hstep : ∀ r, view' r = (place r).decodeView j ∨
      PdPlace.DecodeStep j (place r) ((place r).follow j (view' r)) := by
    intro r
    rcases hcases r with ⟨-, hsame⟩ | ⟨holder, p, hr, hr'⟩
    · exact .inl hsame
    · rw [hr', hr]
      exact .inr (.enter holder p)
  refine ⟨w, place', hstart, ⟨decodeMove h.stands hw hstep (fun r holder j' p _ hr => rfl)
    rfl (fun r => rfl) fun r => ?_, h.noted.still (fun r => ?_) (fun r i => ?_) fun r => ?_⟩,
    moves_of_follow hstep, fun hidle => ?_⟩
  · have hprogress := h.stands.progress r
    rcases hcases r with ⟨hsame, -⟩ | ⟨holder, p, hr, hr'⟩
    · change (place' r).Progress _
      rwa [hsame]
    · rw [hr] at hprogress
      rw [hr']
      exact ⟨hprogress.1.symm ▸ Nat.one_pos, hprogress.2⟩
  · rcases hcases r with ⟨hsame, -⟩ | ⟨holder, p, hr, hr'⟩
    · rw [hsame]
    · rw [show place' r = .decoding holder j p from hr', hr]
      simp
  · rcases hcases r with ⟨hsame, -⟩ | ⟨holder, p, hr, hr'⟩
    · rw [hsame]
    · rw [show place' r = .decoding holder j p from hr', hr]
      simp
  · rcases hcases r with ⟨hsame, -⟩ | ⟨holder, p, hr, hr'⟩
    · rw [hsame]
    · rw [show place' r = .decoding holder j p from hr', hr]
      rfl
  · obtain ⟨hpulls, hnone⟩ := hrest hidle
    refine ⟨hpulls, fun r p hr => hnone r p ?_⟩
    rwa [hplace', PdPlace.decodeView_follow] at hr

end PdSound

end moves

end ServingSim
