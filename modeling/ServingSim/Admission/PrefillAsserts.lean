import ServingSim.Admission.PrefillBooks
import ServingSim.Admission.TokenBudget

/-
  No assertion of the prefill books fires.

  The worker asserts that a request is in one prefill at a time, that a prefill which is in
  the iteration has its episode and its context, that a prefix hit is noted once and within
  the declaration, and that an episode is opened behind a complete one and counted in while
  it is open. All of these read what `PrefillBooks` says. The one message that is left is that of
  a last decode which does not fit: it is about the store's size, not about a prefill.
-/

namespace ServingSim

open KeyedTotal PendingOrderPolicy KvCacheStore Relation ChunkedPrefillWorker

theorem foldlM_ne_error_of_rest {α β : Type} {f : β → α → Except String β} {e : String}
    {I : List α → β → Prop}
    (hok : ∀ x rest b b', I (x :: rest) b → f b x = .ok b' → I rest b')
    (herror : ∀ x rest b, I (x :: rest) b → f b x ≠ .error e) {l : List α} {b : β} (h : I l b) :
    l.foldlM f b ≠ .error e := by
  induction l generalizing b with
  | nil => exact ok_ne_error _ _
  | cons x rest ih =>
    rw [List.foldlM_cons]
    exact bind_ne_error (herror x rest b h) fun b' hb => ih (hok x rest b b' h hb)

theorem ensure_ne_error_of {condition : Prop} [Decidable condition] {message e : String}
    (h : condition) : ensure condition message ≠ .error e := by
  rw [ensure_eq_ok_iff.mpr h]
  exact ok_ne_error _ _

theorem required_ne_error_of {α : Type} {knob : Option α} {message e : String}
    (h : knob ≠ none) : required knob message ≠ .error e := by
  cases knob with
  | none => exact absurd rfl h
  | some a => exact ok_ne_error _ _

variable {P : Type} [PendingOrderPolicy P] {acc : KvAccounting} {n : Nat}
  {cfg : ChunkedPrefillConfig n} {w w' : ChunkedPrefillWorker P acc n} {r : RequestId} {p : Fin n}
  {e : String}

/-! ## In the iteration -/

/-- What is in the iteration is being prefilled. -/
def InFlight (w : ChunkedPrefillWorker P acc n) : Prop :=
  ∀ p, ∀ r ∈ (w.store.partitions p).prefillAdmits, w.store.phaseOf r = .chunked p

omit [PendingOrderPolicy P] in
theorem InFlight.of_idle (h : Idle w) : InFlight w := by
  intro p r hr
  rw [h p] at hr
  cases hr

variable {s s' : Forming P acc n}

theorem inFlight_forming (hstep : FormStep cfg s s')
    (hlocated : Located cfg s.worker) (h : InFlight s.worker) : InFlight s'.worker := by
  cases hstep with
  | @chunk p before after c context budget tokens left available started fresh resolved size
      positive spent =>
    have hat := hlocated.at_started (p := p) (c := c) (by simp [started])
    have hphase : s.worker.store.phaseOf c.requestId = .chunked p := hat.phase
    have hop : StoreOp.Issuable s.worker.store (.schedulePrefillChunk c.requestId p tokens) :=
      hphase
    have hsame : ∀ t, (StoreOp.apply s.worker.store
        (.schedulePrefillChunk c.requestId p tokens)).phaseOf t = s.worker.store.phaseOf t :=
      fun t => phaseOf_apply hlocated.tracked hop
    intro q t ht
    have hmem : t ∈ (s.worker.store.partitions q).prefillAdmits ++
        if q = p then [c.requestId] else [] :=
      (admits_schedulePrefillChunk s.worker.store c.requestId p q tokens) ▸ ht
    refine (hsame t).trans ?_
    rcases List.mem_append.mp hmem with hmem | hmem
    · exact h q t hmem
    · split at hmem
      · next hq =>
        rw [List.mem_singleton.mp hmem, hq]
        exact hphase
      · cases hmem
  | refresh p => exact h
  | @admitted p budget chunkBudget left slots slots' a worker available windows room gate claimed
      entered spent =>
    obtain ⟨hpeek, -⟩ := gateHead_spec gate
    obtain ⟨hphase, -⟩ := hlocated.admitted hpeek entered
    have habsent := (hlocated.at_waiting (mem_of_peek hpeek)).phase
    intro q t ht
    rw [admits_admitHead entered q] at ht
    rcases List.mem_append.mp ht with hmem | hmem
    · have hne := hlocated.scheduled.not_absent habsent q t hmem
      exact (congrArg Entries.phase (entriesOf_admitted hlocated hpeek entered hne)).trans
        (h q t hmem)
    · split at hmem
      · next hq =>
        rw [List.mem_singleton.mp hmem, hq]
        exact hphase
      · cases hmem

theorem inFlight_released (hlocated : Located cfg w) (h : InFlight w) (r : RequestId) :
    InFlight (w.releaseRequest r) := by
  obtain ⟨habsent, -⟩ := releaseRequest_clear hlocated r
  obtain ⟨-, hsubset⟩ := releaseRequest_frame w r
  intro p s hs
  have hne : s ≠ r := (hlocated.cancel r).scheduled.not_absent habsent p s hs
  exact (congrArg Entries.phase (entriesOf_releaseRequest hlocated hne)).trans
    (h p s (hsubset p hs))

/-! ## Between the steps -/

/-- What every step of the shell keeps of the prefills. -/
structure PrefillsKept (w : ChunkedPrefillWorker P acc n) : Prop where
  accounted : Accounted w
  books : PrefillBooks w
  ordered : OrderTracked w
  inFlight : InFlight w

theorem kept_making {config : BoundedFutureKvAdmissionConfig} {stepTokens : Nat}
    (hstep : Making config stepTokens w w') (hlocated : Located cfg w) (hidle : Idle w)
    (h : PrefillsKept w) : PrefillsKept w' where
  accounted := accounted_making hstep hlocated h.accounted
  books := books_making hstep hlocated h.books
  ordered := ordered_making hstep hlocated hidle h.ordered
  inFlight := .of_idle (hstep.located hlocated hidle).2

theorem kept_forming (hstep : FormStep cfg s s')
    (hlocated : Located cfg s.worker) (h : PrefillsKept s.worker) : PrefillsKept s'.worker where
  accounted := accounted_forming hstep hlocated h.accounted
  books := books_forming hstep hlocated h.books
  ordered := ordered_forming hstep hlocated h.ordered
  inFlight := inFlight_forming hstep hlocated h.inFlight

theorem kept_completing_path (hpath : ReflTransGen (fun w w' => ∃ p, Completing cfg p w w') w w')
    (hlocated : Located cfg w) (haccounted : Accounted w) (hbooks : PrefillBooks w) :
    Accounted w' ∧ PrefillBooks w' :=
  completing_rule (J := fun w => Accounted w ∧ PrefillBooks w)
    (fun hturn hlocated hw => ⟨accounted_completing hturn hlocated hw.1,
      books_completing hturn hlocated hw.1 hw.2⟩) hpath hlocated ⟨haccounted, hbooks⟩

theorem kept_step {op : WorkerOp} (hsettled : Settled cfg w) (h : PrefillsKept w)
    (hop : op.Enabled w) (hstep : op.step cfg w = .ok w') : PrefillsKept w' := by
  have hordered := ordered_step hsettled h.ordered hop hstep
  cases op with
  | enqueue r =>
    have haccept : w.acceptMessage cfg r = .ok w' := hstep
    refine ⟨accounted_enqueued haccept h.accounted,
      books_enqueued hsettled.located hop hstep h.books, hordered, ?_⟩
    obtain ⟨p, c, sequence, balance, -, -, -, -, -, rfl⟩ := acceptMessage_spec haccept
    exact h.inFlight
  | formBatch =>
    obtain ⟨formed, hasBatch, hform, rfl⟩ := WorkerOp.step_formBatch hstep
    obtain ⟨-, hformed, -⟩ := formBatch_rule (J := PrefillsKept)
      (fun _ _ _ _ hw => ⟨hw.accounted, hw.books, hw.ordered, hw.inFlight⟩)
      (fun hturn hlocated hidle hw => kept_making hturn hlocated hidle hw)
      (fun hturn hlocated hw => kept_forming hturn hlocated hw) hform hsettled.located
      (hsettled.idle hop) h
    exact ⟨hformed.accounted, hformed.books, hformed.ordered, hformed.inFlight⟩
  | completeIteration =>
    obtain ⟨completed, events, hcomplete, rfl⟩ := WorkerOp.step_completeIteration hstep
    obtain ⟨hpath, -, hidle⟩ := completeIteration_path hsettled.located hcomplete
    obtain ⟨haccounted, hbooks⟩ := kept_completing_path hpath hsettled.located h.accounted h.books
    exact ⟨haccounted, hbooks, hordered, .of_idle hidle⟩
  | release r =>
    obtain rfl := Except.ok.inj hstep
    exact ⟨accounted_released hsettled.located h.accounted,
      books_released hsettled.located h.books r, hordered,
      inFlight_released hsettled.located h.inFlight r⟩

theorem prefillsKept_new (cfg : ChunkedPrefillConfig n) (budget : PrefixCacheBudget)
    {requests : Requests} (hrequests : ∀ r, (requests r).Fresh) (policies : Fin n → P)
    (balance : LoadBalance) :
    PrefillsKept (ChunkedPrefillWorker.new cfg budget requests policies balance :
      ChunkedPrefillWorker P acc n) where
  accounted := accounted_new cfg budget hrequests policies balance
  books := books_new cfg budget hrequests policies balance
  ordered := ordered_new cfg budget requests policies balance
  inFlight := .of_idle fun _ => rfl

/-! ## Retraction -/

/-- The message of a last decode that does not fit. -/
def abortRequired : String :=
  "bounded-future decode cannot fit its last request; abort lifecycle is required"

theorem selectBest_isSome {α : Type} (better : α → α → Bool) {xs : List α} (h : xs ≠ []) :
    selectBest better xs ≠ none := by
  cases xs with
  | nil => exact absurd rfl h
  | cons x rest =>
    rw [selectBest, List.foldl_cons]
    -- once there is a best, there is one after each element
    apply List.foldlRecOn (motive := fun best : Option α => best ≠ none)
    · exact Option.some_ne_none x
    · intro best hbest y hy
      cases best with
      | none => exact absurd rfl hbest
      | some old =>
        dsimp only
        split
        · exact Option.some_ne_none y
        · exact Option.some_ne_none old

theorem selectRetraction_ne_error (hlocated : Located cfg w) (hordered : OrderTracked w)
    (hlive : w.decodeStates p ≠ []) (policy : DecodeRetractionPolicy) :
    w.selectRetraction p policy ≠ .error e := by
  cases policy with
  | length =>
    refine required_ne_error_of ?_
    rw [selectLengthRetraction]
    intro hnone
    refine selectBest_isSome _ ?_ (Option.map_eq_none_iff.mp hnone)
    intro hnil
    exact hlive (List.zipIdx_eq_nil_iff.mp hnil)
  | fcfs =>
    have hscan : ∃ victim, (w.decodeStates p).foldlM
        (fun (victim : Option (Nat × RequestId)) request => do
          let order ← w.admissionOrderOf request
          return if victim.all fun best : Nat × RequestId => decide (order > best.1) then
              some (order, request)
            else victim)
        none = .ok victim ∧
        (w.decodeStates p ≠ [] → victim ≠ none) := by
      refine foldlM_ok_of_visited (I := fun visited victim => visited ≠ [] → victim ≠ none)
        (fun visited request rest victim hl hI => ?_) fun hne => absurd rfl hne
      have hmem : request ∈ w.decodeStates p := by simp [hl]
      have hplaced : w.store.phaseOf request ≠ .absent := by
        rw [hlocated.resident_of_live hmem]
        intro habsent
        cases habsent
      obtain ⟨order, horder⟩ := Option.ne_none_iff_exists'.mp
        ((hordered request).placed hplaced)
      refine ⟨if victim.all fun best : Nat × RequestId => decide (order > best.1) then
          some (order, request) else victim, ?_, fun _ => ?_⟩
      · rw [admissionOrderOf, horder]
        rfl
      · split
        · exact Option.some_ne_none _
        · next hall =>
          cases victim with
          | none => exact absurd rfl hall
          | some best => exact Option.some_ne_none best
    obtain ⟨victim, hvictim, hsome⟩ := hscan
    obtain ⟨best, hbest⟩ := Option.ne_none_iff_exists'.mp (hsome hlive)
    simp only [selectRetraction, selectFcfsRetraction]
    rw [hvictim, hbest]
    exact ok_ne_error _ _

variable {config : BoundedFutureKvAdmissionConfig} {stepTokens : Nat}

theorem retractUntilFits_ne_error (he : e ≠ abortRequired) (fuel : Nat) (hlocated : Located cfg w)
    (hidle : Idle w) (hordered : OrderTracked w) (retracted : Bool) :
    retractUntilFits config stepTokens p fuel (w, retracted) ≠ .error e := by
  induction fuel generalizing w retracted with
  | zero => exact ok_ne_error _ _
  | succ fuel ih =>
    simp only [retractUntilFits]
    split
    · next hhas =>
      have hmaking : Making config stepTokens w
          (w.issue (.prepareNextDecode p config.pageSize stepTokens)) := .prepare p
      obtain ⟨hlocated', hidle'⟩ := hmaking.located hlocated hidle
      have hordered' := ordered_making hmaking hlocated hidle hordered
      split
      · refine bind_ne_error ?_ fun evicted hevicted => ?_
        · refine bind_ne_error (ensure_ne_error he.symm) fun _ hmore =>
            bind_ne_error ?_ fun _ _ => ok_ne_error _ _
          have hcount := ensure_eq_ok_iff.mp hmore
          refine selectRetraction_ne_error hlocated' hordered' ?_ _
          intro hnil
          rw [← length_decodeStates, hnil] at hcount
          cases hcount
        · have hretract : Making config stepTokens
              (w.issue (.prepareNextDecode p config.pageSize stepTokens)) evicted :=
            retractOne_path hevicted
          obtain ⟨hlocated'', hidle''⟩ := hretract.located hlocated' hidle'
          exact ih hlocated'' hidle'' (ordered_making hretract hlocated' hidle' hordered') true
      · exact ok_ne_error _ _
    · exact ok_ne_error _ _

theorem making_rule {J : ChunkedPrefillWorker P acc n → Prop}
    (hturn : ∀ {w w' : ChunkedPrefillWorker P acc n}, Making config stepTokens w w' →
      Located cfg w → Idle w → J w → J w')
    (hpath : ReflTransGen (Making config stepTokens) w w') (hlocated : Located cfg w)
    (hidle : Idle w) (h : J w) : Located cfg w' ∧ Idle w' ∧ J w' := by
  induction hpath with
  | refl => exact ⟨hlocated, hidle, h⟩
  | tail _ hstep ih =>
    obtain ⟨hlocated', hidle', h'⟩ := ih
    obtain ⟨hlocated'', hidle''⟩ := hstep.located hlocated' hidle'
    exact ⟨hlocated'', hidle'', hturn hstep hlocated' hidle' h'⟩

theorem prepareDecode_ne_error (he : e ≠ abortRequired) (hlocated : Located cfg w)
    (hidle : Idle w) (hordered : OrderTracked w) :
    w.prepareDecode config stepTokens ≠ .error e := by
  refine bind_ne_error ?_ fun _ _ => ok_ne_error _ _
  refine foldlM_ne_error_of_rest
    (I := fun _ (state : ChunkedPrefillWorker P acc n × Bool) =>
      Located cfg state.1 ∧ Idle state.1 ∧ OrderTracked state.1)
    (fun q rest state state' hI hturn => ?_) (fun q rest state hI => ?_) ⟨hlocated, hidle, hordered⟩
  · obtain ⟨hlocated, hidle, hordered⟩ := hI
    exact making_rule ordered_making (retractUntilFits_path hturn) hlocated hidle hordered
  · obtain ⟨hlocated, hidle, hordered⟩ := hI
    exact retractUntilFits_ne_error he _ hlocated hidle hordered state.2

/-! ## Scheduling -/

theorem spend_ne_error {budget tokens : Nat} (h : tokens ≤ budget) :
    spend budget tokens ≠ .error e :=
  bind_ne_error (ensure_ne_error_of h) fun _ _ => ok_ne_error _ _

omit [PendingOrderPolicy P] in
/-- Scheduling a chunk takes no context away. -/
theorem context_scheduled (tokens : Nat) {s : RequestId}
    (h : (w.store.ledger.viewOf s).context ≠ none) :
    ((w.issue (.schedulePrefillChunk r p tokens)).store.ledger.viewOf s).context ≠ none := by
  refine (congrArg (fun view => RequestView.context view ≠ none)
    (view_schedulePrefillChunk w.store r s p tokens)).mpr ?_
  split
  · rw [ne_eq, Option.map_eq_none_iff]
    exact h
  · exact h

omit [PendingOrderPolicy P] in
theorem scheduleStarted_ne_error {rest : List AdmissionCandidate} {budget : Nat}
    (hrest : ∀ c ∈ rest, (w.store.ledger.viewOf c.requestId).context ≠ none) :
    scheduleStarted cfg p rest w budget ≠ .error e := by
  induction rest generalizing w budget with
  | nil => exact ok_ne_error _ _
  | cons c rest ih =>
    have htail : ∀ d ∈ rest, (w.store.ledger.viewOf d.requestId).context ≠ none :=
      fun d hd => hrest d (List.mem_cons_of_mem _ hd)
    simp only [scheduleStarted]
    refine bind_ne_error (required_ne_error_of (hrest c List.mem_cons_self)) fun resolved _ => ?_
    have hchunk := nextChunkTokens_le resolved (budget - cfg.draftingSlots) cfg.chunkEndAlignment
      cfg.maxBatchTokens
    split
    · exact bind_ne_error (ih htail) fun _ _ => ok_ne_error _ _
    · refine bind_ne_error (spend_ne_error (by omega)) fun left _ => ?_
      exact bind_ne_error (ih fun d hd => context_scheduled _ (htail d hd))
        fun _ _ => ok_ne_error _ _

theorem Located.context_started (h : Located cfg w) {c : AdmissionCandidate}
    (hc : c ∈ w.startedPrefills p) : (w.store.ledger.viewOf c.requestId).context ≠ none := by
  obtain ⟨-, context, hcontext, -⟩ := (h.at_started hc).progress
  have hsome : (w.store.ledger.viewOf c.requestId).context = some context := hcontext
  rw [hsome]
  exact Option.some_ne_none context

theorem admittedRecord_ne_error {record : RequestRecord} (hshut : Shut record) {a : Admission}
    (hfits : a.candidate.Fits record)
    (hresident : a.resolvedPrefill.residentPrefixTokens ≤ record.session.declaredPrefixTokens) :
    admittedRecord a record ≠ .error e := by
  unfold admittedRecord
  split
  · refine bind_ne_error (ensure_ne_error_of fun episode hlast => ?_) fun _ _ => ok_ne_error _ _
    exact hshut.closed episode (List.mem_of_getLast? hlast)
  · next hfresh =>
    have hzero := hfits.first (Bool.eq_false_iff.mpr hfresh)
    exact bind_ne_error (ensure_ne_error_of hresident) fun _ _ =>
      bind_ne_error (ensure_ne_error_of (hshut.untouched hzero).1) fun _ _ => ok_ne_error _ _

theorem admitHead_ne_error (hlocated : Located cfg w) (h : PrefillBooks w) {budget : Nat}
    {slots : Option Nat} {a : Admission} (hgate : gateHead cfg w p budget slots = some a) :
    w.admitHead p a ≠ .error e := by
  obtain ⟨hpeek, hresolved, -⟩ := gateHead_spec hgate
  have hwaiting := hlocated.at_waiting (mem_of_peek hpeek)
  have hfits : a.candidate.Fits (w.requests a.candidate.requestId) := hwaiting.progress
  have hshut : Shut (w.requests a.candidate.requestId) := by
    refine (h a.candidate.requestId).shut (.inr (.inl ⟨p, ?_⟩))
    exact List.ne_nil_of_mem (mem_ofRequest.mpr ⟨mem_of_peek hpeek, rfl⟩)
  have hresident : a.resolvedPrefill.residentPrefixTokens ≤
      (w.requests a.candidate.requestId).session.declaredPrefixTokens := by
    rw [hresolved, ← hfits.session]
    exact previewPrefillContext_resident ..
  have hrecord := admittedRecord_ne_error (e := e) hshut hfits hresident
  have hepisode : w.prefillEpisodes.lookup a.candidate.requestId = none := hwaiting.episode
  simp only [ChunkedPrefillWorker.admitHead, ChunkedPrefillWorker.tryModifyRequest]
  refine bind_ne_error (bind_ne_error ?_ fun _ _ => ok_ne_error _ _) fun recorded hrecorded =>
    bind_ne_error (ensure_ne_error_of ?_) fun _ _ => ok_ne_error _ _
  · simpa [admittedRecord, ChunkedPrefillWorker.modifyRequest, ChunkedPrefillWorker.issue,
      ChunkedPrefillWorker.modifyPolicy] using hrecord
  · simp only [bind_eq_ok_iff] at hrecorded
    obtain ⟨record, -, hrecorded⟩ := hrecorded
    obtain rfl := Except.ok.inj hrecorded
    exact hepisode

theorem claimWindow_ne_error {c : AdmissionCandidate} {slots : Option Nat}
    (h : ¬ (c.remainingOutputTokens > 1 ∧ slots = some 0)) : claimWindow c slots ≠ .error e := by
  unfold claimWindow
  split
  · exact ok_ne_error _ _
  · next windows =>
    split
    · next hdecodes =>
      have hsome : windows ≠ 0 := fun hzero => h ⟨hdecodes, by rw [hzero]⟩
      exact bind_ne_error (spend_ne_error (by omega)) fun _ _ => ok_ne_error _ _
    · exact ok_ne_error _ _

theorem admitFresh_ne_error {fuel budget : Nat} {slots : Option Nat} (hlocated : Located cfg w)
    (h : PrefillBooks w) : admitFresh cfg p fuel w budget slots ≠ .error e := by
  induction fuel generalizing w budget slots with
  | zero => exact ok_ne_error _ _
  | succ fuel ih =>
    have hrefreshed : PrefillBooks (w.refreshPolicy p) := fun t =>
      (entriesOf_refresh hlocated p t).symm ▸ h t
    simp only [admitFresh]
    split
    · next hroom =>
      refine bind_ne_error (spend_ne_error (Nat.le_of_lt hroom)) fun chunkBudget hspent => ?_
      have hbudget := spend_eq_ok_iff.mp hspent
      split
      · exact ok_ne_error _ _
      · next a hgate =>
        obtain ⟨-, -, -, -, -, hchunk, hwindow⟩ := gateHead_spec hgate
        exact bind_ne_error (claimWindow_ne_error hwindow) fun _ _ =>
          bind_ne_error (admitHead_ne_error (hlocated.refresh p) hrefreshed hgate)
            fun admitted hentered => bind_ne_error (spend_ne_error (by omega)) fun left _ =>
              ih ((hlocated.refresh p).admitHead hgate hentered)
                (hrefreshed.admitHead (hlocated.refresh p) hgate hentered)
    · exact ok_ne_error _ _

theorem kept_forming_path (hpath : ReflTransGen (FormStep cfg) s s')
    (hlocated : Located cfg s.worker) (h : PrefillBooks s.worker) :
    Located cfg s'.worker ∧ PrefillBooks s'.worker := by
  induction hpath with
  | refl => exact ⟨hlocated, h⟩
  | tail _ hstep ih => exact ⟨hstep.located ih.1, books_forming hstep ih.1 ih.2⟩

theorem schedulePrefills_ne_error (hlocated : Located cfg w) (hidle : Idle w)
    (h : PrefillBooks w) (retracted : Bool) : w.schedulePrefills cfg retracted ≠ .error e := by
  simp only [schedulePrefills]
  have hstarted : ∀ (q : Fin n) (rest : List (Fin n))
      (state state' : ChunkedPrefillWorker P acc n × (Fin n → Nat)),
      (Located cfg state.1 ∧ PrefillBooks state.1 ∧ (q :: rest).Nodup ∧
        ∀ p ∈ q :: rest, (state.1.store.partitions p).prefillAdmits = []) →
      scheduleStartedOn cfg state q = .ok state' →
      Located cfg state'.1 ∧ PrefillBooks state'.1 ∧ rest.Nodup ∧
        ∀ p ∈ rest, (state'.1.store.partitions p).prefillAdmits = [] := by
    intro q rest state state' hI hturn
    obtain ⟨hlocated, h, hnodup, hfree⟩ := hI
    obtain ⟨hnew, hnodup⟩ := List.nodup_cons.mp hnodup
    obtain ⟨hpath, hother⟩ := scheduleStartedOn_path (fun _ => none) hlocated
      (hfree q List.mem_cons_self) hturn
    obtain ⟨hlocated', h'⟩ := kept_forming_path hpath hlocated h
    refine ⟨hlocated', h', hnodup, fun p hp => ?_⟩
    rw [hother p fun heq => hnew (heq ▸ hp)]
    exact hfree p (List.mem_cons_of_mem _ hp)
  have hinit : Located cfg w ∧ PrefillBooks w ∧ (List.finRange n).Nodup ∧
      ∀ p ∈ List.finRange n, (w.store.partitions p).prefillAdmits = [] :=
    ⟨hlocated, h, List.nodup_finRange n, fun p _ => hidle p⟩
  refine bind_ne_error ?_ fun state hscheduled => ?_
  · refine foldlM_ne_error_of_rest
      (I := fun rest (state : ChunkedPrefillWorker P acc n × (Fin n → Nat)) =>
        Located cfg state.1 ∧ PrefillBooks state.1 ∧ rest.Nodup ∧
          ∀ p ∈ rest, (state.1.store.partitions p).prefillAdmits = [])
      hstarted (fun q rest state hI => ?_) hinit
    exact bind_ne_error (scheduleStarted_ne_error fun c hc => hI.1.context_started hc)
      fun _ _ => ok_ne_error _ _
  · have hscheduled' := Run.tryRun_induction
      (I := fun rest (state : ChunkedPrefillWorker P acc n × (Fin n → Nat)) =>
        Located cfg state.1 ∧ PrefillBooks state.1 ∧ rest.Nodup ∧
          ∀ p ∈ rest, (state.1.store.partitions p).prefillAdmits = [])
      hstarted hinit hscheduled
    obtain ⟨hlocated', h', -⟩ := hscheduled'
    split
    · exact ok_ne_error _ _
    · refine foldlM_ne_error_of_rest
        (I := fun _ (v : ChunkedPrefillWorker P acc n) => Located cfg v ∧ PrefillBooks v)
        (fun q rest v v' hI hturn => ?_) (fun q rest v hI => admitFresh_ne_error hI.1 hI.2)
        ⟨hlocated', h'⟩
      have hbudget : (fun _ : Fin n => state.2 q) q = state.2 q := rfl
      have hslot : (fun _ : Fin n => futureDecodeSlots cfg w q) q = futureDecodeSlots cfg w q := rfl
      obtain ⟨budgets, slots, hpath, -⟩ := admitFresh_path hturn hbudget hslot
      exact kept_forming_path hpath hI.1 hI.2

theorem formBatch_ne_error (he : e ≠ abortRequired) (hlocated : Located cfg w) (hidle : Idle w)
    (h : PrefillsKept w) : w.formBatch cfg ≠ .error e := by
  have hplanned : Located cfg { w with batchPlan := fun _ => true } :=
    hlocated.of_eq rfl rfl rfl rfl rfl
  have hkept : PrefillsKept { w with batchPlan := fun _ => true } :=
    ⟨h.accounted, h.books, h.ordered, h.inFlight⟩
  simp only [formBatch]
  refine bind_ne_error ?_ fun state hbefore => ?_
  · unfold prepareBeforeAdmission
    split
    · split
      · exact prepareDecode_ne_error he hplanned hidle hkept.ordered
      · exact ok_ne_error _ _
    · exact ok_ne_error _ _
  obtain ⟨prepared, retracted⟩ := state
  have hprepared : Located cfg prepared ∧ Idle prepared ∧ PrefillsKept prepared := by
    unfold prepareBeforeAdmission at hbefore
    split at hbefore
    · split at hbefore
      · exact making_rule kept_making (prepareDecode_path hbefore) hplanned hidle hkept
      · obtain ⟨rfl, -⟩ := Prod.ext_iff.mp (Except.ok.inj hbefore)
        exact ⟨hplanned, hidle, hkept⟩
    · obtain ⟨rfl, -⟩ := Prod.ext_iff.mp (Except.ok.inj hbefore)
      exact ⟨hplanned, hidle, hkept⟩
  obtain ⟨hlocated', hidle', hkept'⟩ := hprepared
  refine bind_ne_error (schedulePrefills_ne_error hlocated' hidle' hkept'.books retracted)
    fun scheduled hscheduled => bind_ne_error ?_ fun _ _ => ok_ne_error _ _
  obtain ⟨budgets, slots, hpath⟩ := schedulePrefills_path hlocated' hidle' hscheduled
  have hforming : ∀ {s s' : Forming P acc n}, ReflTransGen (FormStep cfg) s s' →
      Located cfg s.worker → OrderTracked s.worker → OrderTracked s'.worker := by
    intro s s' hpath hlocated hordered
    have hall : Located cfg s'.worker ∧ OrderTracked s'.worker := by
      induction hpath with
      | refl => exact ⟨hlocated, hordered⟩
      | tail _ hstep ih => exact ⟨hstep.located ih.1, ordered_forming hstep ih.1 ih.2⟩
    exact hall.2
  have hordered := hforming hpath hlocated' hkept'.ordered
  have hscheduled' := located_of_forming hpath hlocated'
  unfold prepareDecodeOnly
  split
  · split
    · next hmix =>
      simp only [Bool.and_eq_true, Bool.not_eq_true'] at hmix
      exact bind_ne_error (prepareDecode_ne_error he (hscheduled'.of_eq rfl rfl rfl rfl rfl)
        (idle_of_noPrefill hmix.1.2) hordered) fun _ _ => ok_ne_error _ _
    · exact ok_ne_error _ _
  · exact ok_ne_error _ _

/-! ## Completing -/

theorem retireMembers_ne_error {completion : DecodeCompletion} {members : List (RequestId × Nat)}
    {requests : Requests} (hnodup : (members.map Prod.fst).Nodup)
    (hleft : ∀ r ∈ members.map Prod.fst, 0 < (requests r).remainingOutputTokens) :
    completion.retireMembers members requests ≠ .error e := by
  induction members generalizing requests with
  | nil => exact ok_ne_error _ _
  | cons member members ih =>
    obtain ⟨request, residentKv⟩ := member
    obtain ⟨hfirst, hnodup⟩ := List.nodup_cons.mp hnodup
    simp only [DecodeCompletion.retireMembers]
    refine bind_ne_error ?_ fun tokens _ => bind_ne_error (ih hnodup fun s hs => ?_)
      fun _ _ => ok_ne_error _ _
    · cases completion with
      | singleToken => exact ok_ne_error _ _
      | speculative draftTokens maxModelLen accepts hpos =>
        exact bind_ne_error (ensure_ne_error_of (hleft request List.mem_cons_self))
          fun _ _ => ok_ne_error _ _
    · -- the members behind the first are other requests
      have hne : s ≠ request := fun heq => hfirst (heq ▸ hs)
      rw [DecodeCompletion.retire_of_ne requests tokens hne]
      exact hleft s (List.mem_cons_of_mem _ hs)

theorem completeDecodesOn_ne_error (hlocated : Located cfg w) :
    w.completeDecodesOn cfg p ≠ .error e := by
  simp only [completeDecodesOn]
  split
  · refine bind_ne_error (bind_ne_error (retireMembers_ne_error ?_ fun r hr => ?_)
      fun _ _ => ok_ne_error _ _) fun _ _ => ok_ne_error _ _
    · exact (members_eq w p).symm ▸ nodup_decodeStates w p
    · exact (hlocated.mem_decodeStates_iff.mp ((members_eq w p) ▸ hr)).2
  · exact ok_ne_error _ _

theorem updateEpisode_of_open {record : RequestRecord} {last : ReprocessedPrefillEpisode}
    (hlast : record.reprocessedPrefills.getLast? = some last) (hopen : last.completed = false)
    (missing closed : String) (f : ReprocessedPrefillEpisode → ReprocessedPrefillEpisode) :
    record.updateEpisode missing closed f = .ok { record with
      reprocessedPrefills := record.reprocessedPrefills.dropLast ++ [f last] } := by
  simp only [RequestRecord.updateEpisode, hlast]
  rw [ensure_eq_ok_iff.mpr hopen]
  rfl

theorem recordChunk_ne_error {reprocessed finished : Bool} {chunkTokens : Nat}
    {record : RequestRecord} {context : ResolvedPrefillContext}
    (h : Opened reprocessed record context) :
    ChunkedPrefillWorker.recordChunk reprocessed finished chunkTokens record ≠ .error e := by
  cases reprocessed with
  | false => cases finished <;> exact ok_ne_error _ _
  | true =>
    obtain ⟨-, last, hlast, hopen⟩ := h.again rfl
    simp only [ChunkedPrefillWorker.recordChunk, if_true]
    refine bind_ne_error ?_ fun recorded hrecorded => ?_
    · rw [RequestRecord.recordReprocessedPrefillTokens, updateEpisode_of_open hlast hopen]
      exact ok_ne_error _ _
    obtain ⟨counted, hcounted, hstill, rfl⟩ := RequestRecord.updateEpisode_spec hrecorded
    cases finished with
    | false => exact ok_ne_error _ _
    | true =>
      -- the episode closed is the one just counted in
      refine bind_ne_error ?_ fun _ _ => bind_ne_error (ok_ne_error _ _) fun _ _ => ok_ne_error _ _
      obtain ⟨final, hfinal, hopen⟩ : ∃ final, (record.reprocessedPrefills.dropLast ++
          [{ counted with
            prefillTokensProcessed := counted.prefillTokensProcessed + chunkTokens }]).getLast? =
          some final ∧ final.completed = false := ⟨_, List.getLast?_concat, hstill⟩
      rw [RequestRecord.completeReprocessedPrefill, updateEpisode_of_open hfinal hopen]
      exact ok_ne_error _ _

theorem completePrefill_ne_error (hlocated : Located cfg w) (h : PrefillBooks w)
    (hphase : w.store.phaseOf r = .chunked p) (completed : List RequestId) :
    completePrefill p (w, completed) r ≠ .error e := by
  obtain ⟨c, hat⟩ := hlocated.at_chunked hphase
  obtain ⟨-, context, hcontext, -⟩ := hat.progress
  have hepisode : w.prefillEpisodes.lookup r = some c.retracted := hat.episode
  have hresolved : (w.store.ledger.viewOf r).context = some context := hcontext
  have hprefilled : w.store.ledger.prefillContext r ≠ none := by
    rw [show w.store.ledger.prefillContext r = some context from hcontext]
    exact Option.some_ne_none _
  have hadvanced : ((w.store.completePrefillChunk r).ledger.viewOf r).context ≠ none := by
    have hview := view_completePrefillChunk w.store r r
    rw [if_pos rfl] at hview
    rw [hview, hresolved]
    exact Option.some_ne_none _
  simp only [ChunkedPrefillWorker.completePrefill, ChunkedPrefillWorker.tryModifyRequest]
  refine bind_ne_error (required_ne_error_of (hepisode ▸ Option.some_ne_none _))
    fun reprocessed hreprocessed => ?_
  refine bind_ne_error (required_ne_error_of hprefilled) fun resolved _ => ?_
  refine bind_ne_error (required_ne_error_of hadvanced) fun after _ => ?_
  refine bind_ne_error (bind_ne_error ?_ fun _ _ => ok_ne_error _ _) fun recorded _ => ?_
  · exact recordChunk_ne_error ((h r).opened p context reprocessed hphase hresolved
      (required_eq_ok_iff.mp hreprocessed))
  · split
    · exact ok_ne_error _ _
    · exact ok_ne_error _ _

theorem Completing.chunked_of_ne {q : Fin n} (hstep : Completing cfg p w w')
    (hlocated : Located cfg w) (hq : q ≠ p) (hr : w.store.phaseOf r = .chunked q) :
    w'.store.phaseOf r = .chunked q := by
  cases hstep with
  | decoded step => exact ((hlocated.decodeStep step).phase r).trans hr
  | @prefilled _ s completed completed' admitted step =>
    have hchunk := hlocated.completePrefill admitted step
    have hne : r ≠ s := by
      rintro rfl
      cases hr.symm.trans hchunk.before
      exact hq rfl
    exact (hchunk.other hne).1.trans hr
  | cleared => exact (congrArg Entries.phase (entriesOf_clear hlocated.tracked r)).trans hr
  | @finished s resident complete free =>
    have hne : r ≠ s := by
      rintro rfl
      cases hr.symm.trans resident
    exact (congrArg Entries.phase
      (entriesOf_releaseCompleted hlocated.tracked resident hne)).trans hr

theorem completing_path_chunked {q : Fin n} (hpath : ReflTransGen (Completing cfg p) w w')
    (hlocated : Located cfg w) (hq : q ≠ p) (hr : w.store.phaseOf r = .chunked q) :
    w'.store.phaseOf r = .chunked q := by
  have hall : Located cfg w' ∧ w'.store.phaseOf r = .chunked q := by
    induction hpath with
    | refl => exact ⟨hlocated, hr⟩
    | tail _ hstep ih => exact ⟨hstep.located ih.1, hstep.chunked_of_ne ih.1 hq ih.2⟩
  exact hall.2

theorem completePrefills_ne_error {rest completed : List RequestId} (hlocated : Located cfg w)
    (haccounted : Accounted w) (h : PrefillBooks w) (hnodup : rest.Nodup)
    (hrest : ∀ r ∈ rest, r ∈ (w.store.partitions p).prefillAdmits ∧
      w.store.phaseOf r = .chunked p) :
    rest.foldlM (completePrefill p) (w, completed) ≠ .error e := by
  refine foldlM_ne_error_of_rest
    (I := fun rest (state : ChunkedPrefillWorker P acc n × List RequestId) =>
      (Located cfg state.1 ∧ Accounted state.1 ∧ PrefillBooks state.1) ∧ rest.Nodup ∧
        ∀ r ∈ rest, r ∈ (state.1.store.partitions p).prefillAdmits ∧
          state.1.store.phaseOf r = .chunked p)
    (fun r rest state state' hI hturn => ?_) (fun r rest state hI => ?_)
    ⟨⟨hlocated, haccounted, h⟩, hnodup, hrest⟩
  · obtain ⟨⟨hlocated, haccounted, h⟩, hnodup, hrest⟩ := hI
    obtain ⟨hnew, hnodup⟩ := List.nodup_cons.mp hnodup
    obtain ⟨hr, -⟩ := hrest r List.mem_cons_self
    have hchunk := hlocated.completePrefill hr hturn
    refine ⟨⟨hchunk.located, accounted_completing (.prefilled hr hturn) hlocated haccounted,
      books_completing (.prefilled hr hturn) hlocated haccounted h⟩, hnodup, fun s hs => ?_⟩
    obtain ⟨hmem, hphase⟩ := hrest s (List.mem_cons_of_mem _ hs)
    refine ⟨hchunk.admits p ▸ hmem, ?_⟩
    rw [(hchunk.other fun heq => hnew (heq ▸ hs)).1]
    exact hphase
  · exact completePrefill_ne_error hI.1.1 hI.1.2.2 (hI.2.2 r List.mem_cons_self).2 state.2

theorem completeIteration_ne_error (hlocated : Located cfg w) (h : PrefillsKept w) :
    w.completeIteration cfg ≠ .error e := by
  refine foldlM_ne_error_of_rest
    (I := fun rest (state : ChunkedPrefillWorker P acc n × List RequestId) =>
      (Located cfg state.1 ∧ Accounted state.1 ∧ PrefillBooks state.1) ∧ rest.Nodup ∧
        ∀ p ∈ rest, ∀ r ∈ (state.1.store.partitions p).prefillAdmits,
          state.1.store.phaseOf r = .chunked p)
    (fun p rest state state' hI hturn => ?_) (fun p rest state hI => ?_)
    ⟨⟨hlocated, h.accounted, h.books⟩, List.nodup_finRange n, fun p _ => h.inFlight p⟩
  · obtain ⟨⟨hlocated, haccounted, h⟩, hnodup, hrest⟩ := hI
    obtain ⟨hnew, hnodup⟩ := List.nodup_cons.mp hnodup
    obtain ⟨hpath, hadmits, -⟩ := completePartition_path hlocated hturn
    have hkept := kept_completing_path (hpath.lift id fun _ _ hstep => ⟨p, hstep⟩) hlocated
      haccounted h
    refine ⟨⟨located_of_completing hpath hlocated, hkept⟩, hnodup, fun q hq r hr => ?_⟩
    have hne : q ≠ p := fun heq => hnew (heq ▸ hq)
    rw [hadmits, if_neg hne] at hr
    exact completing_path_chunked hpath hlocated hne (hrest q (List.mem_cons_of_mem _ hq) r hr)
  · obtain ⟨⟨hlocated, haccounted, h⟩, -, hrest⟩ := hI
    simp only [completePartition]
    refine bind_ne_error (completeDecodesOn_ne_error hlocated) fun decoded hdecoded => ?_
    have hdecode := hlocated.decodeStep hdecoded
    have hturn : Completing cfg p state.1 decoded.1 := .decoded hdecoded
    refine bind_ne_error (completePrefills_ne_error hdecode.located
      (accounted_completing hturn hlocated haccounted)
      (books_completing hturn hlocated haccounted h) (hdecode.located.scheduled.nodup p)
      fun r hr => ⟨hr, ?_⟩) fun _ _ => ok_ne_error _ _
    rw [hdecode.phase r]
    exact hrest p List.mem_cons_self r (hdecode.admits p ▸ hr)

/-! ## A step -/

theorem acceptMessage_ne_error : w.acceptMessage cfg r ≠ .error e := by
  simp only [acceptMessage]
  refine bind_ne_error ?_ fun _ _ => ok_ne_error _ _
  unfold choosePartition
  split
  · exact ok_ne_error _ _
  · split
    · next hneeds =>
      cases hbalance : ChunkedPrefillWorker.balance _ with
      | leastLoaded next => exact ok_ne_error _ _
      | single => simp [hbalance, LoadBalance.needsLoad] at hneeds
      | roundRobin next => simp [hbalance, LoadBalance.needsLoad] at hneeds
    · next hneeds =>
      cases hbalance : ChunkedPrefillWorker.balance _ with
      | leastLoaded next => simp [hbalance, LoadBalance.needsLoad] at hneeds
      | single => exact ok_ne_error _ _
      | roundRobin next => exact ok_ne_error _ _

theorem step_ne_error {op : WorkerOp} (hsettled : Settled cfg w) (h : PrefillsKept w)
    (hop : op.Enabled w) (he : e ≠ abortRequired) : op.step cfg w ≠ .error e := by
  cases op with
  | enqueue r =>
    have haccept : w.acceptMessage cfg r ≠ .error e := acceptMessage_ne_error
    exact haccept
  | formBatch =>
    exact bind_ne_error (formBatch_ne_error he hsettled.located (hsettled.idle hop) h)
      fun _ _ => ok_ne_error _ _
  | completeIteration =>
    exact bind_ne_error (completeIteration_ne_error hsettled.located h) fun _ _ => ok_ne_error _ _
  | release r => exact ok_ne_error _ _

end ServingSim
