import ServingSim.Orchestrator.Pd
import ServingSim.Worker.DecodeStands

/-
  The handoff protocol of a prefill/decode-disaggregated deployment.

  One request at a time the deployment is a small machine: a request waits at a prefill
  worker, is prefilled there, is announced, queued and pulled by one decode worker, lands,
  is decoded and done, and the prefill worker keeps its KV until the landing has been
  acknowledged. `PdPlace` is the state of that machine; `PdPlace.PrefillStep` and
  `PdPlace.DecodeStep` are the steps the two kinds of workers take.

  `PdStands` connects the machine to the code: the tables of every worker are what the
  places of all requests look like from there. `PdNoted` does the same for the events a
  tick has pushed and not forwarded yet. What one worker does changes its own tables and
  the places of its own requests; `PdStands.prefillMove` and `PdStands.decodeMove` say once
  why every other worker still stands.
-/

namespace ServingSim

open Custody PendingOrderPolicy PdPrefillWorker PullDecodeWorker

/-- Where a request is. A holder is the prefill worker that still keeps its KV. -/
inductive PdPlace (m k n : Nat) where
  | absent
  | waiting (i : Fin m)
  | prefilling (i : Fin m)
  /-- Prefilled and held; the event that says so is on its way. -/
  | announced (i : Fin m)
  /-- Held, and handed to a decode worker that has not submitted the pull. -/
  | queued (i : Fin m) (j : Fin k)
  | pulling (i : Fin m) (j : Fin k)
  | landed (holder : Option (Fin m)) (j : Fin k)
  | decoding (holder : Option (Fin m)) (j : Fin k) (p : Fin n)
  | done (holder : Option (Fin m))
  deriving DecidableEq, Repr

namespace PdPlace

variable {m k n : Nat}

/-- The request as prefill worker `i` sees it. -/
def prefillView (i : Fin m) : PdPlace m k n → PrefillView
  | waiting i' => if i' = i then .waiting else .elsewhere
  | prefilling i' => if i' = i then .prefilling else .elsewhere
  | announced i' | queued i' _ | pulling i' _ => if i' = i then .held else .elsewhere
  | landed holder _ | decoding holder _ _ | done holder =>
    if holder = some i then .held else .elsewhere
  | absent => .elsewhere

/-- The request as decode worker `j` sees it. -/
def decodeView (j : Fin k) : PdPlace m k n → DecodeView m n
  | queued i j' => if j' = j then .queued i else .elsewhere
  | pulling i j' => if j' = j then .pulling i else .elsewhere
  | landed _ j' => if j' = j then .landed else .elsewhere
  | decoding _ j' p => if j' = j then .decoding p else .elsewhere
  | absent | waiting _ | prefilling _ | announced _ | done _ => .elsewhere

/-- The worker an acknowledgement of the landing is on its way to. -/
def ack : PdPlace m k n → Option (Fin m)
  | landed holder _ | decoding holder _ _ | done holder => holder
  | absent | waiting _ | prefilling _ | announced _ | queued _ _ | pulling _ _ => none

/-- The acknowledgement has arrived. -/
def acknowledged : PdPlace m k n → PdPlace m k n
  | landed _ j => landed none j
  | decoding _ j p => decoding none j p
  | done _ => done none
  | place => place

/-- The place a request is at once decode worker `j` sees it like that. -/
def follow (j : Fin k) (place : PdPlace m k n) (view : DecodeView m n) : PdPlace m k n :=
  if place.decodeView j = view then place
  else
    match view with
    | .elsewhere => done place.ack
    | .queued i => queued i j
    | .pulling i => pulling i j
    | .landed => landed (place.decodeView j).source j
    | .decoding p => decoding place.ack j p

/-- What the record of a request says, place by place. -/
def Progress (record : RequestRecord) : PdPlace m k n → Prop
  | absent => True
  | waiting _ => record.outputTokensEmitted = 0 ∧ record.prefixCacheHitTokens = none
  | prefilling _ => record.outputTokensEmitted = 0
  | announced _ | queued _ _ | pulling _ _ | landed _ _ =>
    record.outputTokensEmitted = 1 ∧ 0 < record.remainingOutputTokens
  | decoding _ _ _ => 0 < record.outputTokensEmitted ∧ 0 < record.remainingOutputTokens
  | done _ => record.outputTokensEmitted = max 1 record.targetOutputTokens

/-! ## Views read back -/

section views

variable {place : PdPlace m k n} {i : Fin m} {j : Fin k}

theorem prefillView_eq_waiting : place.prefillView i = .waiting ↔ place = .waiting i := by
  cases place <;> simp [prefillView] <;> split <;> simp_all

theorem prefillView_eq_prefilling : place.prefillView i = .prefilling ↔ place = .prefilling i := by
  cases place <;> simp [prefillView] <;> split <;> simp_all

theorem decodeView_eq_queued {i : Fin m} :
    place.decodeView j = .queued i ↔ place = .queued i j := by
  cases place <;> simp [decodeView] <;> split <;> simp_all

theorem decodeView_eq_pulling {i : Fin m} :
    place.decodeView j = .pulling i ↔ place = .pulling i j := by
  cases place <;> simp [decodeView] <;> split <;> simp_all

theorem decodeView_eq_landed :
    place.decodeView j = .landed ↔ ∃ holder, place = .landed holder j := by
  cases place <;> simp [decodeView] <;> split <;> simp_all

theorem decodeView_eq_decoding {p : Fin n} :
    place.decodeView j = .decoding p ↔ ∃ holder, place = .decoding holder j p := by
  cases place <;> simp [decodeView] <;> split <;> simp_all

@[simp] theorem decodeView_follow (place : PdPlace m k n) (view : DecodeView m n) :
    (place.follow j view).decodeView j = view := by
  unfold follow
  split
  · assumption
  · cases view <;> simp [decodeView]

theorem follow_of_eq {view : DecodeView m n} (h : place.decodeView j = view) :
    place.follow j view = place := if_pos h

end views

/-! ## Steps of the protocol -/

/-- What prefill worker `i` does to a request. -/
inductive PrefillStep (i : Fin m) : PdPlace m k n → PdPlace m k n → Prop
  | arrive : PrefillStep i .absent (.waiting i)
  | enter : PrefillStep i (.waiting i) (.prefilling i)
  /-- A request that wanted a single token is finished. -/
  | finish : PrefillStep i (.prefilling i) (.done none)
  | announce : PrefillStep i (.prefilling i) (.announced i)
  | letGo {place : PdPlace m k n} : place.ack = some i → PrefillStep i place place.acknowledged

/-- What decode worker `j` does to a request. -/
inductive DecodeStep (j : Fin k) : PdPlace m k n → PdPlace m k n → Prop
  | handoff (i : Fin m) : DecodeStep j (.announced i) (.queued i j)
  | submit (i : Fin m) : DecodeStep j (.queued i j) (.pulling i j)
  | land (i : Fin m) : DecodeStep j (.pulling i j) (.landed (some i) j)
  /-- Submitted and landed in one tick. -/
  | fetch (i : Fin m) : DecodeStep j (.queued i j) (.landed (some i) j)
  | enter (holder : Option (Fin m)) (p : Fin n) :
    DecodeStep j (.landed holder j) (.decoding holder j p)
  | finish (holder : Option (Fin m)) (p : Fin n) :
    DecodeStep j (.decoding holder j p) (.done holder)

/-- A step of the protocol. -/
def Step (place place' : PdPlace m k n) : Prop :=
  (∃ i, PrefillStep i place place') ∨ ∃ j, DecodeStep j place place'

theorem update_step {Q : PdPlace m k n → PdPlace m k n → Prop}
    {place : RequestId → PdPlace m k n} {r : RequestId} {s : PdPlace m k n} (h : Q (place r) s)
    (q : RequestId) : Function.update place r s q = place q ∨
      Q (place q) (Function.update place r s q) := by
  by_cases hq : q = r
  · subst hq
    rw [Function.update_self]
    exact .inr h
  · exact .inl (Function.update_of_ne hq ..)

/-- Every request goes on along the protocol, or stays where it is. -/
def Moves (place place' : RequestId → PdPlace m k n) : Prop :=
  ∀ r, Relation.ReflTransGen Step (place r) (place' r)

namespace Moves

variable {place place' place'' : RequestId → PdPlace m k n}

theorem refl (place : RequestId → PdPlace m k n) : Moves place place := fun _ => .refl

theorem trans (h : Moves place place') (h' : Moves place' place'') : Moves place place'' :=
  fun r => (h r).trans (h' r)

theorem of_prefill {i : Fin m}
    (h : ∀ r, place' r = place r ∨ PrefillStep i (place r) (place' r)) : Moves place place' := by
  intro r
  rcases h r with hsame | hstep
  · rw [hsame]
  · exact .single (.inl ⟨i, hstep⟩)

theorem of_decode {j : Fin k}
    (h : ∀ r, place' r = place r ∨ DecodeStep j (place r) (place' r)) : Moves place place' := by
  intro r
  rcases h r with hsame | hstep
  · rw [hsame]
  · exact .single (.inr ⟨j, hstep⟩)

end Moves

section steps

variable {i i' : Fin m} {j j' : Fin k} {place place' : PdPlace m k n}

theorem PrefillStep.decodeView (h : PrefillStep i place place') (j : Fin k) :
    place'.decodeView j = place.decodeView j := by
  cases h with
  | letGo hack => cases place <;> rfl
  | _ => rfl

theorem PrefillStep.prefillView (h : PrefillStep i place place') (hne : i' ≠ i) :
    place'.prefillView i' = place.prefillView i' := by
  have hne' : i ≠ i' := Ne.symm hne
  cases h with
  | letGo hack =>
    cases place <;> simp_all [ack, acknowledged, prefillView]
  | _ => simp [PdPlace.prefillView, hne']

theorem DecodeStep.prefillView (h : DecodeStep j place place') (i : Fin m) :
    place'.prefillView i = place.prefillView i := by
  cases h <;> simp [PdPlace.prefillView]

theorem DecodeStep.decodeView (h : DecodeStep j place place') (hne : j' ≠ j) :
    place'.decodeView j' = place.decodeView j' := by
  have hne' : j ≠ j' := Ne.symm hne
  cases h <;> simp [PdPlace.decodeView, hne']

theorem DecodeStep.ne_absent (h : DecodeStep j place place') :
    place ≠ .absent ∧ place' ≠ .absent := by
  cases h <;> simp

theorem view_same {τ : Type} {f : PdPlace m k n → τ} {Q : PdPlace m k n → PdPlace m k n → Prop}
    {place place' : RequestId → PdPlace m k n}
    (hstep : ∀ r, place' r = place r ∨ Q (place r) (place' r))
    (hsame : ∀ {p p'}, Q p p' → f p' = f p) : (fun r => f (place' r)) = fun r => f (place r) :=
  funext fun r => (hstep r).elim (congrArg f) hsame

end steps

theorem progress_acknowledged (place : PdPlace m k n) (record : RequestRecord) :
    place.acknowledged.Progress record ↔ place.Progress record := by
  cases place <;> rfl

end PdPlace

/-! ## The deployment and its places -/

section custody

variable {P : Type} [PendingOrderPolicy P] {prefillAcc decodeAcc : KvAccounting} {m k n : Nat}

/-- What the stores of a deployment fail with: a context past a `u32`, or a decode step that
overfills a partition, which only a debug build asserts. -/
def PdConfig.Panics {prefillAcc decodeAcc : KvAccounting} {m k n : Nat}
    (cfg : PdConfig prefillAcc decodeAcc m k n) (message : String) : Prop :=
  LongContext cfg.trace message ∨ Overfill decodeAcc.capacityUnits message

/-- Every worker's tables are what the places look like from there. -/
structure PdStands (cfg : PdConfig prefillAcc decodeAcc m k n)
    (prefill : Fin m → PdPrefillWorker P prefillAcc)
    (decode : Fin k → PullDecodeWorker decodeAcc m n) (world : World)
    (place : RequestId → PdPlace m k n) : Prop where
  prefill : ∀ i, PrefillStands cfg.trace (prefill i) fun r => (place r).prefillView i
  decode : ∀ j, DecodeStands cfg.trace world.requests cfg.decode.pullBudgetTokens (decode j)
    fun r => (place r).decodeView j
  arrived : ∀ r, r ∈ world.arrived ↔ place r ≠ .absent
  definition : ∀ r, (world.requests r).definition = (cfg.trace r).definition
  progress : ∀ r, (place r).Progress (world.requests r)

namespace PdStands

variable {cfg : PdConfig prefillAcc decodeAcc m k n}
  {prefill : Fin m → PdPrefillWorker P prefillAcc}
  {decode : Fin k → PullDecodeWorker decodeAcc m n} {world world' : World}
  {place place' : RequestId → PdPlace m k n}

theorem targetOutputTokens_eq (h : PdStands cfg prefill decode world place) (r : RequestId) :
    (world.requests r).targetOutputTokens = (cfg.trace r).targetOutputTokens :=
  congrArg RequestRecord.Definition.targetOutputTokens (h.definition r)

theorem prefillMove (h : PdStands cfg prefill decode world place) {i : Fin m}
    {w : PdPrefillWorker P prefillAcc}
    (hw : PrefillStands cfg.trace w fun r => (place' r).prefillView i)
    (hstep : ∀ r, place' r = place r ∨ PdPlace.PrefillStep i (place r) (place' r))
    (hrecords : ∀ r holder j p, place r = .decoding holder j p →
      world'.requests r = world.requests r)
    (harrived : ∀ r, r ∈ world'.arrived ↔ place' r ≠ .absent)
    (hdefinition : ∀ r, (world'.requests r).definition = (cfg.trace r).definition)
    (hprogress : ∀ r, (place' r).Progress (world'.requests r)) :
    PdStands cfg (Function.update prefill i w) decode world' place' where
  prefill := fun i' => by
    by_cases hi : i' = i
    · subst hi
      rw [Function.update_self]
      exact hw
    · rw [Function.update_of_ne hi, PdPlace.view_same hstep fun hs => hs.prefillView hi]
      exact h.prefill i'
  decode := fun j => by
    rw [PdPlace.view_same hstep fun hs => hs.decodeView j]
    refine (h.decode j).congr_records fun r p hr => ?_
    obtain ⟨holder, hplace⟩ := PdPlace.decodeView_eq_decoding.mp hr
    exact hrecords r holder j p hplace
  arrived := harrived
  definition := hdefinition
  progress := hprogress

theorem decodeMove (h : PdStands cfg prefill decode world place) {j : Fin k}
    {w : PullDecodeWorker decodeAcc m n}
    (hw : DecodeStands cfg.trace world'.requests cfg.decode.pullBudgetTokens w
      fun r => (place' r).decodeView j)
    (hstep : ∀ r, place' r = place r ∨ PdPlace.DecodeStep j (place r) (place' r))
    (hrecords : ∀ r holder j' p, j' ≠ j → place r = .decoding holder j' p →
      world'.requests r = world.requests r)
    (harrived : world'.arrived = world.arrived)
    (hdefinition : ∀ r, (world'.requests r).definition = (world.requests r).definition)
    (hprogress : ∀ r, (place' r).Progress (world'.requests r)) :
    PdStands cfg prefill (Function.update decode j w) world' place' where
  prefill := fun i => by
    rw [PdPlace.view_same hstep fun hs => hs.prefillView i]
    exact h.prefill i
  decode := fun j' => by
    by_cases hj : j' = j
    · subst hj
      rw [Function.update_self]
      exact hw
    · rw [Function.update_of_ne hj, PdPlace.view_same hstep fun hs => hs.decodeView hj]
      refine (h.decode j').congr_records fun r p hr => ?_
      obtain ⟨holder, hplace⟩ := PdPlace.decodeView_eq_decoding.mp hr
      exact hrecords r holder j' p hj hplace
  arrived := fun r => by
    rw [harrived, h.arrived]
    rcases hstep r with hsame | hstep
    · rw [hsame]
    · simp [hstep.ne_absent]
  definition := fun r => (hdefinition r).trans (h.definition r)
  progress := hprogress

end PdStands

/-! ## Events on their way -/

/-- What an event says about a request. -/
inductive PdNotice (m : Nat) where
  | finished (r : RequestId)
  | announced (r : RequestId) (i : Fin m) (kvTokens : Nat)
  | landed (r : RequestId) (i : Fin m)
  deriving DecidableEq, Repr

def PdPrefillEvent.notice : PdPrefillEvent m → PdNotice m
  | requestComplete _ r => .finished r
  | prefillDone i r _ kvTokens => .announced r i kvTokens

def PdDecodeEvent.notice : PdDecodeEvent m k → PdNotice m
  | requestComplete _ r => .finished r
  | pullComplete _ r i => .landed r i

namespace PdNotice

def finishedRequest : PdNotice m → Option RequestId
  | finished r => some r
  | announced _ _ _ | landed _ _ => none

def announcedRequest : PdNotice m → Option RequestId
  | announced r _ _ => some r
  | finished _ | landed _ _ => none

def landedRequest : PdNotice m → Option RequestId
  | landed r _ => some r
  | finished _ | announced _ _ _ => none

end PdNotice

/-- The notices on their way, and the completions already reported, are those of the
places. -/
structure PdNoted (trace : RequestId → RequestRecord) (place : RequestId → PdPlace m k n)
    (notices : List (PdNotice m)) (completed : List RequestId) : Prop where
  finished : Lists (completed ++ notices.filterMap PdNotice.finishedRequest)
    fun r => ∃ holder, place r = .done holder
  announced : Lists (notices.filterMap PdNotice.announcedRequest)
    fun r => ∃ i, place r = .announced i
  announcedBy : ∀ r i kvTokens, .announced r i kvTokens ∈ notices →
    place r = .announced i ∧ kvTokens = (trace r).contextTokens
  landed : Lists (notices.filterMap PdNotice.landedRequest) fun r => (place r).ack.isSome
  landedBy : ∀ r i, .landed r i ∈ notices → (place r).ack = some i

namespace PdNoted

variable {trace : RequestId → RequestRecord} {place place' : RequestId → PdPlace m k n}
  {notices new : List (PdNotice m)} {completed : List RequestId}

theorem push (h : PdNoted trace place notices completed)
    (hfinished : Lists (new.filterMap PdNotice.finishedRequest)
      fun r => (∃ holder, place' r = .done holder) ∧ ¬ ∃ holder, place r = .done holder)
    (hdone : ∀ r holder, place r = .done holder → ∃ holder', place' r = .done holder')
    (hannounced : Lists (new.filterMap PdNotice.announcedRequest)
      fun r => (∃ i, place' r = .announced i) ∧ ¬ ∃ i, place r = .announced i)
    (hkept : ∀ r i, place r = .announced i → place' r = .announced i)
    (hannouncedBy : ∀ r i kvTokens, .announced r i kvTokens ∈ new →
      place' r = .announced i ∧ kvTokens = (trace r).contextTokens)
    (hlanded : Lists (new.filterMap PdNotice.landedRequest)
      fun r => (place' r).ack.isSome ∧ ¬ (place r).ack.isSome)
    (hack : ∀ r i, (place r).ack = some i → (place' r).ack = some i)
    (hlandedBy : ∀ r i, .landed r i ∈ new → (place' r).ack = some i) :
    PdNoted trace place' (notices ++ new) completed where
  finished := by
    rw [List.filterMap_append, ← List.append_assoc]
    refine (h.finished.append hfinished fun r hr hr' => hr'.2 hr).congr fun r => ?_
    have hmono : (∃ holder, place r = .done holder) → ∃ holder, place' r = .done holder :=
      fun ⟨holder, hr⟩ => hdone r holder hr
    tauto
  announced := by
    rw [List.filterMap_append]
    refine (h.announced.append hannounced fun r hr hr' => hr'.2 hr).congr fun r => ?_
    have hmono : (∃ i, place r = .announced i) → ∃ i, place' r = .announced i :=
      fun ⟨i, hr⟩ => ⟨i, hkept r i hr⟩
    tauto
  announcedBy := fun r i kvTokens hm => by
    rcases List.mem_append.mp hm with hm | hm
    · exact (h.announcedBy r i kvTokens hm).imp_left (hkept r i)
    · exact hannouncedBy r i kvTokens hm
  landed := by
    rw [List.filterMap_append]
    refine (h.landed.append hlanded fun r hr hr' => hr'.2 hr).congr fun r => ?_
    have hmono : (place r).ack.isSome → (place' r).ack.isSome := fun hr => by
      obtain ⟨i, hi⟩ := Option.isSome_iff_exists.mp hr
      rw [hack r i hi]
      rfl
    tauto
  landedBy := fun r i hm => by
    rcases List.mem_append.mp hm with hm | hm
    · exact hack r i (h.landedBy r i hm)
    · exact hlandedBy r i hm

theorem still (h : PdNoted trace place notices completed)
    (hdone : ∀ r, (∃ holder, place' r = .done holder) ↔ ∃ holder, place r = .done holder)
    (hannounced : ∀ r i, place' r = .announced i ↔ place r = .announced i)
    (hack : ∀ r, (place' r).ack = (place r).ack) : PdNoted trace place' notices completed where
  finished := h.finished.congr fun r => (hdone r).symm
  announced := h.announced.congr fun r => exists_congr fun i => (hannounced r i).symm
  announcedBy := fun r i kvTokens hm =>
    (h.announcedBy r i kvTokens hm).imp_left (hannounced r i).mpr
  landed := h.landed.congr fun r => by rw [hack]
  landedBy := fun r i hm => (hack r).trans (h.landedBy r i hm)

theorem stillOne (h : PdNoted trace place notices completed) {r : RequestId} {s : PdPlace m k n}
    (hdone : (∃ holder, s = .done holder) ↔ ∃ holder, place r = .done holder)
    (hannounced : ∀ i, s = .announced i ↔ place r = .announced i)
    (hack : s.ack = (place r).ack) :
    PdNoted trace (Function.update place r s) notices completed := by
  refine h.still (fun q => ?_) (fun q i => ?_) fun q => ?_
  all_goals
    by_cases hq : q = r
    · subst hq
      simp [hdone, hannounced, hack]
    · simp [hq]

end PdNoted

end custody

end ServingSim
