import ServingSim.Lib.KeyedTotal
import ServingSim.Timing.TokenCorpus

/-
  Where a fused-MoE kernel's routed demand comes from (`timing::expert_demand`), with
  the two caches a process keeps: the payloads it has read, and the folded histograms
  it has drawn.

  A cached value is what computing it anew gives, whatever was asked before
  (`Caches.Sound`). So a call returns what drawing each of its counts alone returns,
  from the payload the files hold: the fold cache leaves the rank position out of its
  key because the position only rotates the fold.

  What is proved:
    1. `batches_alone` — so does every call of a run.

  Renamed (Rust ↔ Lean):
    `LOADED_CORPORA`, `FOLDED` ↔ `Caches`
  The worker threads of `parallel_by_cost` return the results in index order. The files
  do not change during a run. A panic is an error.
-/

namespace ServingSim

open KeyedTotal Systematic

/-- The seed every demand source folds at. -/
def foldSeed : SplitMix.Word := 0xF01D5EED

inductive ExpertDemand where
  /-- Resample a per-layer expert marginal. -/
  | popularity (layerwiseGlobalPpm : List (List Nat))
  /-- Sample recorded per-token routes. -/
  | corpus (config : TokenCorpusConfig)
  deriving DecidableEq

/-- A demand source with its payload resolved. -/
inductive PreparedDemand where
  | popularity (layerwiseGlobalPpm : List (List Nat))
  | corpus (tokens : TokenCorpus)

namespace PreparedDemand

/-- One folded histogram. -/
def sampleAndFold (prepared : PreparedDemand) (topK expertsPerRank numTokens : Nat) :
    Except String (List Nat) :=
  match prepared with
  | popularity layerwiseGlobalPpm =>
    sampleAndFoldLayerwise layerwiseGlobalPpm topK numTokens expertsPerRank foldSeed
  | corpus tokens => tokens.sampleAndFold numTokens expertsPerRank

/-- The next candidate of every draw, count by count. -/
def selectEach (expertsPerRank : Nat) :
    List Nat → List (List (List Nat)) → Except String (List (List Nat))
  | [], _ => .ok []
  | _ :: tokenCounts, perDraw => do
    let candidates ← perDraw.mapM fun drawCandidates =>
      match drawCandidates with
      | candidate :: _ => .ok candidate
      | [] => .error "one candidate per count"
    let selected ← selectCandidate candidates expertsPerRank
    let others ← selectEach expertsPerRank tokenCounts (perDraw.map List.tail)
    return selected :: others

/-- A folded histogram at every token count (ascending). -/
def sampleAndFoldMany (prepared : PreparedDemand) (topK : Nat) (tokenCounts : List Nat)
    (expertsPerRank : Nat) : Except String (List (List Nat)) :=
  match prepared with
  | popularity _ => tokenCounts.mapM (prepared.sampleAndFold topK expertsPerRank)
  | corpus tokens => do
    let perDraw ← (List.range tokens.config.samplingCandidates).mapM
      (tokens.candidatesAscending tokenCounts expertsPerRank)
    selectEach expertsPerRank tokenCounts perDraw

end PreparedDemand

/-! ## The process caches -/

/-- A demand source, `topK`, and the experts of a rank. -/
abbrev FoldKey := ExpertDemand × Nat × Nat

structure Caches where
  /-- Payloads already read. -/
  loadedCorpora : AList Payload
  /-- Folded histograms already drawn, by token count. -/
  folded : Table FoldKey (Table Nat (List Nat))

namespace Caches

def empty : Caches := ⟨∅, ∅⟩

variable (files : Files)

def loadCached (caches : Caches) (config : TokenCorpusConfig) :
    Except String TokenCorpus × Caches :=
  match caches.loadedCorpora.lookup config.key with
  | some payload => (TokenCorpus.rebind config payload, caches)
  | none =>
    match TokenCorpus.load files config with
    | .ok corpus =>
      (.ok corpus,
        { caches with
          loadedCorpora := caches.loadedCorpora.insert corpus.config.key corpus.payload })
    | .error e => (.error e, caches)

/-- Resolve the payload of a demand source. -/
def prepare (caches : Caches) : ExpertDemand → Except String PreparedDemand × Caches
  | .popularity layerwiseGlobalPpm => (.ok (.popularity layerwiseGlobalPpm), caches)
  | .corpus config =>
    let (corpus, caches) := caches.loadCached files config
    (corpus.map .corpus, caches)

/-- The folds of a key, none before the first. -/
def known (caches : Caches) (key : FoldKey) : Table Nat (List Nat) :=
  (caches.folded.lookup key).getD ∅

def insertFolds (caches : Caches) (key : FoldKey) (drawn : List (Nat × List Nat)) : Caches :=
  { caches with
    folded := caches.folded.insert key
      (drawn.foldl (fun known entry => known.insert entry.1 entry.2) (caches.known key)) }

end Caches

/-! ## Kernel calls -/

/-- The arguments of one `per_expert_batches`. -/
structure BatchesCall where
  demand : ExpertDemand
  topK : Nat
  tokenCounts : List Nat
  numExperts : Nat
  numLocalExperts : Nat
  foldedRankPosition : Nat

namespace BatchesCall

variable (call : BatchesCall)

def rankOffset : Nat := call.foldedRankPosition * call.numLocalExperts

def key : FoldKey := (call.demand, call.topK, call.numLocalExperts)

def check : Except String Unit := do
  ensure (0 < call.numLocalExperts) "num_local_experts must be non-zero"
  ensure (call.numExperts % call.numLocalExperts = 0)
    "local experts must evenly partition global experts"
  ensure (call.rankOffset + call.numLocalExperts ≤ call.numExperts)
    "folded_rank_position must select an EP rank"

/-- Check a fold's width and let the requested rank lead. -/
def rotate (folded : List Nat) : Except String (List Nat) := do
  ensure (folded.length = call.numExperts) "demand source width must match num_experts"
  return folded.rotateLeft call.rankOffset

/-- The shared folds of the call's counts, rotated. -/
def gather (caches : Caches) : Except String (List (List Nat)) :=
  call.tokenCounts.mapM fun numTokens =>
    match (caches.known call.key).lookup numTokens with
    | some folded => call.rotate folded
    | none => .error "no entry found for key"

/-- The counts the fold cache does not know, ascending and each once. -/
def missing (caches : Caches) : List Nat :=
  dedupRuns ((call.tokenCounts.filter fun numTokens =>
    decide (numTokens ∉ caches.known call.key)).mergeSort (· ≤ ·))

/-- The per-expert row counts a fused-MoE profiler receives at each token count. -/
def perExpertBatches (files : Files) (caches : Caches) : Except String (List (List Nat)) × Caches :=
  match call.check with
  | .error e => (.error e, caches)
  | .ok () =>
    if call.tokenCounts = [] then (.ok [], caches)
    else if call.missing caches = [] then (call.gather caches, caches)
    else
      match caches.prepare files call.demand with
      | (.error e, caches) => (.error e, caches)
      | (.ok prepared, caches') =>
        match prepared.sampleAndFoldMany call.topK (call.missing caches) call.numLocalExperts with
        | .error e => (.error e, caches')
        | .ok drawn =>
          let caches := caches'.insertFolds call.key ((call.missing caches).zip drawn)
          (call.gather caches, caches)

end BatchesCall

/-- The results of a run of calls from the given caches. -/
def runBatches (files : Files) : Caches → List BatchesCall → List (Except String (List (List Nat)))
  | _, [] => []
  | caches, call :: calls =>
    let (result, caches) := call.perExpertBatches files caches
    result :: runBatches files caches calls

/-! ## Drawing alone -/

/-- One count of a source, drawn on its own from the source's files and seed. -/
def ExpertDemand.drawAlone (files : Files) (demand : ExpertDemand) (topK expertsPerRank : Nat)
    (numTokens : Nat) : Except String (List Nat) :=
  match demand with
  | popularity layerwiseGlobalPpm =>
    sampleAndFoldLayerwise layerwiseGlobalPpm topK numTokens expertsPerRank foldSeed
  | corpus config => do
    let tokens ← TokenCorpus.load files config
    tokens.drawAlone numTokens expertsPerRank

/-- What a call gives for one of its counts drawn on its own. -/
def BatchesCall.aloneAt (files : Files) (call : BatchesCall) (numTokens : Nat) :
    Except String (List Nat) := do
  let folded ← call.demand.drawAlone files call.topK call.numLocalExperts numTokens
  call.rotate folded

/-- What a call returns when each of its counts is drawn on its own. -/
def BatchesCall.alone (files : Files) (call : BatchesCall) : Except String (List (List Nat)) := do
  call.check
  call.tokenCounts.mapM (call.aloneAt files)

/-! ## Many counts at once -/

namespace PreparedDemand

theorem selectEach_eq {δ : Type} (expertsPerRank : Nat) (g : Nat → δ → List Nat)
    (draws : List δ) (tokenCounts : List Nat) :
    selectEach expertsPerRank tokenCounts (draws.map fun draw => tokenCounts.map (g · draw)) =
      tokenCounts.mapM fun numTokens =>
        selectCandidate (draws.map (g numTokens)) expertsPerRank := by
  induction tokenCounts with
  | nil => rfl
  | cons numTokens tokenCounts ih =>
    have hheads : (draws.map fun draw => (numTokens :: tokenCounts).map (g · draw)).mapM
        (fun drawCandidates => match drawCandidates with
          | candidate :: _ => Except.ok candidate
          | [] => Except.error "one candidate per count") = .ok (draws.map (g numTokens)) := by
      rw [mapM_eq_ok_iff, List.forall₂_map_left_iff, List.forall₂_map_right_iff]
      exact List.forall₂_same.mpr fun draw _ => rfl
    have htails : (draws.map fun draw => (numTokens :: tokenCounts).map (g · draw)).map List.tail =
        draws.map fun draw => tokenCounts.map (g · draw) := by
      rw [List.map_map]
      rfl
    rw [selectEach, hheads, htails, List.mapM_cons]
    simp only [bind, Except.bind, ih]

/-- The candidate of a draw that did not fail. -/
def outcome : Except String (List Nat) → List Nat
  | .ok folded => folded
  | .error _ => []

theorem sampleAndFoldMany_eq_ok_iff (prepared : PreparedDemand) (topK : Nat)
    {tokenCounts : List Nat} (expertsPerRank : Nat) (hascending : tokenCounts.Pairwise (· ≤ ·))
    {folds : List (List Nat)} :
    prepared.sampleAndFoldMany topK tokenCounts expertsPerRank = .ok folds ↔
      tokenCounts.mapM (prepared.sampleAndFold topK expertsPerRank) = .ok folds := by
  cases prepared with
  | popularity layerwiseGlobalPpm => rfl
  | corpus tokens =>
    have hwalk : ∀ draw : Nat, tokens.candidatesAscending tokenCounts expertsPerRank draw =
        tokenCounts.mapM fun numTokens => tokens.drawCandidate numTokens expertsPerRank draw :=
      fun draw => TokenCorpus.sampleLayerCountsAscending_eq _ _ hascending
    have halone : ∀ numTokens : Nat, (corpus tokens).sampleAndFold topK expertsPerRank numTokens =
        tokens.drawAlone numTokens expertsPerRank :=
      fun numTokens => TokenCorpus.sampleAndFold_eq numTokens expertsPerRank
    -- once no candidate fails, both sides select among the same candidates
    have hsame : (∀ numTokens ∈ tokenCounts, ∀ draw ∈ List.range tokens.config.samplingCandidates,
          ∃ folded, tokens.drawCandidate numTokens expertsPerRank draw = .ok folded) →
        (corpus tokens).sampleAndFoldMany topK tokenCounts expertsPerRank =
          tokenCounts.mapM ((corpus tokens).sampleAndFold topK expertsPerRank) := by
      intro hall
      have hok : ∀ numTokens ∈ tokenCounts, ∀ draw ∈ List.range tokens.config.samplingCandidates,
            tokens.drawCandidate numTokens expertsPerRank draw =
              .ok (outcome (tokens.drawCandidate numTokens expertsPerRank draw)) := by
        intro numTokens hnum draw hdraw
        obtain ⟨folded, hfolded⟩ := hall numTokens hnum draw hdraw
        rw [hfolded]
        rfl
      rw [sampleAndFoldMany, mapM_eq_ok_of_forall fun draw hdraw => (hwalk draw).trans
        (mapM_eq_ok_of_forall fun numTokens hnum => hok numTokens hnum draw hdraw)]
      refine (selectEach_eq expertsPerRank
        (fun numTokens draw => outcome (tokens.drawCandidate numTokens expertsPerRank draw))
        _ tokenCounts).trans (mapM_congr fun numTokens hnum => ?_)
      rw [halone, TokenCorpus.drawAlone, mapM_eq_ok_of_forall (hok numTokens hnum)]
      rfl
    constructor
    · intro h
      rw [← hsame fun numTokens hnum draw hdraw => ?_, h]
      obtain ⟨perDraw, hperDraw, -⟩ := bind_eq_ok_iff.mp h
      obtain ⟨candidates, hcandidates⟩ := exists_ok_of_mapM hperDraw hdraw
      rw [hwalk] at hcandidates
      exact exists_ok_of_mapM hcandidates hnum
    · intro h
      rw [hsame fun numTokens hnum draw hdraw => ?_, h]
      obtain ⟨folded, hfolded⟩ := exists_ok_of_mapM h hnum
      rw [halone] at hfolded
      obtain ⟨candidates, hcandidates, -⟩ := bind_eq_ok_iff.mp hfolded
      exact exists_ok_of_mapM hcandidates hdraw

end PreparedDemand

/-! ## Sound caches -/

/-- The source with its payload read from the files. -/
def ExpertDemand.load (files : Files) : ExpertDemand → Except String PreparedDemand
  | popularity layerwiseGlobalPpm => .ok (.popularity layerwiseGlobalPpm)
  | corpus config => (TokenCorpus.load files config).map .corpus

theorem ExpertDemand.drawAlone_eq (files : Files) (demand : ExpertDemand)
    (topK expertsPerRank numTokens : Nat) :
    demand.drawAlone files topK expertsPerRank numTokens = (demand.load files >>= fun prepared =>
        prepared.sampleAndFold topK expertsPerRank numTokens) := by
  cases demand with
  | popularity layerwiseGlobalPpm => rfl
  | corpus config =>
    rw [ExpertDemand.drawAlone, ExpertDemand.load]
    cases TokenCorpus.load files config with
    | error e => rfl
    | ok tokens => exact (TokenCorpus.sampleAndFold_eq numTokens expertsPerRank).symm

namespace Caches

/-- A cached value is what computing it from the files gives. -/
structure Sound (files : Files) (caches : Caches) : Prop where
  corpora : ∀ (key : CorpusKey) (payload : Payload key),
    caches.loadedCorpora.lookup key = some payload → readPayload files key = .ok payload
  folds : ∀ (key : FoldKey) (numTokens : Nat) (folded : List Nat),
    (caches.known key).lookup numTokens = some folded →
      key.1.drawAlone files key.2.1 key.2.2 numTokens = .ok folded

variable {files : Files} {caches : Caches}

theorem sound_empty : Sound files empty where
  corpora := fun key payload h => by simp [empty] at h
  folds := fun key numTokens folded h => by simp [empty, known] at h

theorem load_payload {config : TokenCorpusConfig} {tokens : TokenCorpus}
    (h : TokenCorpus.load files config = .ok tokens) :
    readPayload files tokens.config.key = .ok tokens.payload := by
  unfold TokenCorpus.load at h
  split at h
  · obtain ⟨payload, hpayload, heq⟩ := bind_eq_ok_iff.mp h
    obtain rfl := Except.ok.inj heq
    exact hpayload
  · cases h

/-- The payload cache does not change what a source loads. -/
theorem Sound.loadCached (h : caches.Sound files) (config : TokenCorpusConfig) :
    (caches.loadCached files config).1 = TokenCorpus.load files config ∧
      (caches.loadCached files config).2.Sound files ∧
      (caches.loadCached files config).2.folded = caches.folded := by
  unfold Caches.loadCached
  split
  · rename_i payload hlookup
    exact ⟨TokenCorpus.rebind_eq_load (h.corpora _ payload hlookup), h, rfl⟩
  · split
    · rename_i tokens hload
      refine ⟨hload.symm, ⟨fun key payload hlookup => ?_, h.folds⟩, rfl⟩
      by_cases hkey : key = tokens.config.key
      · subst hkey
        rw [AList.lookup_insert] at hlookup
        rw [load_payload hload, Option.some.inj hlookup]
      · rw [AList.lookup_insert_ne hkey] at hlookup
        exact h.corpora key payload hlookup
    · rename_i e hload
      exact ⟨hload.symm, h, rfl⟩

theorem Sound.prepare (h : caches.Sound files) (demand : ExpertDemand) :
    (caches.prepare files demand).1 = demand.load files ∧
      (caches.prepare files demand).2.Sound files ∧
      (caches.prepare files demand).2.folded = caches.folded := by
  cases demand with
  | popularity layerwiseGlobalPpm => exact ⟨rfl, h, rfl⟩
  | corpus config =>
    obtain ⟨hload, hsound, hfolded⟩ := h.loadCached config
    exact ⟨congrArg (Except.map PreparedDemand.corpus) hload, hsound, hfolded⟩

theorem lookup_insertAll {entries : List (Nat × List Nat)} {known : Table Nat (List Nat)}
    {numTokens : Nat} :
    (∀ folded, (entries.foldl (fun known entry => known.insert entry.1 entry.2) known).lookup
        numTokens = some folded → (numTokens, folded) ∈ entries ∨
          known.lookup numTokens = some folded) ∧
      (numTokens ∈ entries.foldl (fun known entry => known.insert entry.1 entry.2) known ↔
        numTokens ∈ entries.map Prod.fst ∨ numTokens ∈ known) := by
  induction entries generalizing known with
  | nil => exact ⟨fun folded h => .inr h, by simp⟩
  | cons entry entries ih =>
    rw [List.foldl_cons]
    refine ⟨fun folded h => ?_, ?_⟩
    · rcases ih.1 folded h with h | h
      · exact .inl (List.mem_cons_of_mem _ h)
      · by_cases heq : numTokens = entry.1
        · subst heq
          rw [AList.lookup_insert] at h
          obtain rfl := Option.some.inj h
          exact .inl List.mem_cons_self
        · rw [AList.lookup_insert_ne heq] at h
          exact .inr h
    · rw [ih.2, AList.mem_insert, List.map_cons, List.mem_cons]
      tauto

theorem Sound.insertFolds (h : caches.Sound files) (key : FoldKey)
    {drawn : List (Nat × List Nat)}
    (hdrawn : ∀ entry ∈ drawn, key.1.drawAlone files key.2.1 key.2.2 entry.1 = .ok entry.2) :
    (caches.insertFolds key drawn).Sound files := by
  refine ⟨h.corpora, fun key' numTokens folded hlookup => ?_⟩
  by_cases hkey : key' = key
  · subst hkey
    rw [known, Caches.insertFolds, AList.lookup_insert, Option.getD_some] at hlookup
    rcases lookup_insertAll.1 folded hlookup with hmem | hold
    · exact hdrawn _ hmem
    · exact h.folds _ numTokens folded hold
  · rw [known, Caches.insertFolds, AList.lookup_insert_ne hkey] at hlookup
    exact h.folds key' numTokens folded hlookup

theorem mem_known_insertFolds {key : FoldKey} {drawn : List (Nat × List Nat)} {numTokens : Nat} :
    numTokens ∈ (caches.insertFolds key drawn).known key ↔
      numTokens ∈ drawn.map Prod.fst ∨ numTokens ∈ caches.known key := by
  rw [known, Caches.insertFolds, AList.lookup_insert, Option.getD_some]
  exact lookup_insertAll.2

end Caches

/-! ## Calls -/

namespace BatchesCall

variable {files : Files} {caches : Caches} {call : BatchesCall}

theorem gather_eq (h : caches.Sound files) (hknown : ∀ numTokens ∈ call.tokenCounts,
    numTokens ∈ caches.known call.key) :
    call.gather caches = call.tokenCounts.mapM (call.aloneAt files) := by
  refine mapM_congr fun numTokens hnum => ?_
  obtain ⟨folded, hlookup⟩ := Option.isSome_iff_exists.mp
    (AList.lookup_isSome.mpr (hknown numTokens hnum))
  have halone : call.demand.drawAlone files call.topK call.numLocalExperts numTokens =
      .ok folded := h.folds call.key numTokens folded hlookup
  rw [hlookup, aloneAt, halone]
  rfl

theorem mem_missing {numTokens : Nat} : numTokens ∈ call.missing caches ↔
    numTokens ∈ call.tokenCounts ∧ numTokens ∉ caches.known call.key := by
  rw [missing, mem_dedupRuns, List.mem_mergeSort, List.mem_filter, decide_eq_true_iff]

theorem missing_ascending (call : BatchesCall) (caches : Caches) :
    (call.missing caches).Pairwise (· ≤ ·) := by
  refine (strict_dedupRuns (pairwise_mergeSort_le _)).imp fun hlt => hlt.le

theorem drawn_alone {prepared : PreparedDemand} {drawn : List (List Nat)}
    (hload : call.demand.load files = .ok prepared)
    (hdrawn : prepared.sampleAndFoldMany call.topK (call.missing caches) call.numLocalExperts =
      .ok drawn) :
    (∀ entry ∈ (call.missing caches).zip drawn,
      call.demand.drawAlone files call.topK call.numLocalExperts entry.1 = .ok entry.2) ∧
      ((call.missing caches).zip drawn).map Prod.fst = call.missing caches := by
  have hall := mapM_eq_ok_iff.mp ((prepared.sampleAndFoldMany_eq_ok_iff call.topK
    call.numLocalExperts (call.missing_ascending caches)).mp hdrawn)
  refine ⟨fun entry hentry => ?_, List.map_fst_zip hall.length_eq.le⟩
  rw [ExpertDemand.drawAlone_eq, hload]
  exact (List.forall₂_iff_zip.mp hall).2 hentry

theorem exists_drawn (caches : Caches) {prepared : PreparedDemand}
    (hload : call.demand.load files = .ok prepared)
    (hall : ∀ numTokens ∈ call.tokenCounts, ∃ folded,
      call.demand.drawAlone files call.topK call.numLocalExperts numTokens = .ok folded) :
    ∃ drawn, prepared.sampleAndFoldMany call.topK (call.missing caches) call.numLocalExperts =
      .ok drawn := by
  refine ⟨_, (prepared.sampleAndFoldMany_eq_ok_iff call.topK call.numLocalExperts
    (call.missing_ascending caches)).mpr (mapM_eq_ok_of_forall
      (g := fun numTokens => PreparedDemand.outcome
        (prepared.sampleAndFold call.topK call.numLocalExperts numTokens))
      fun numTokens hnum => ?_)⟩
  obtain ⟨folded, hfolded⟩ := hall numTokens (mem_missing.mp hnum).1
  rw [ExpertDemand.drawAlone_eq, hload] at hfolded
  replace hfolded : prepared.sampleAndFold call.topK call.numLocalExperts numTokens =
    .ok folded := hfolded
  rw [hfolded]
  rfl

theorem perExpertBatches_spec (h : caches.Sound files) (call : BatchesCall) :
    (call.perExpertBatches files caches).2.Sound files ∧
      ∀ batches, (call.perExpertBatches files caches).1 = .ok batches ↔
        call.alone files = .ok batches := by
  unfold perExpertBatches alone
  cases hcheck : call.check with
  | error e => exact ⟨h, fun batches => Iff.rfl⟩
  | ok checked =>
    show _ ∧ ∀ batches, _ ↔ call.tokenCounts.mapM (call.aloneAt files) = .ok batches
    dsimp only
    split
    · rename_i hempty
      rw [hempty]
      exact ⟨h, fun batches => Iff.rfl⟩
    · rename_i hnonempty
      split
      · rename_i hmissing
        refine ⟨h, fun batches => ?_⟩
        rw [gather_eq h fun numTokens hnum => ?_]
        by_contra hunknown
        have := mem_missing.mpr ⟨hnum, hunknown⟩
        rw [hmissing] at this
        cases this
      · obtain ⟨hload, hsound, hfolded⟩ := h.prepare call.demand
        have halone : ∀ batches, call.tokenCounts.mapM (call.aloneAt files) = .ok batches →
            ∀ numTokens ∈ call.tokenCounts, ∃ folded,
              call.demand.drawAlone files call.topK call.numLocalExperts numTokens =
                  .ok folded := by
          intro batches hbatches numTokens hnum
          obtain ⟨rotated, hrotated⟩ := exists_ok_of_mapM hbatches hnum
          obtain ⟨folded, hdrawn, -⟩ := bind_eq_ok_iff.mp hrotated
          exact ⟨folded, hdrawn⟩
        obtain ⟨numTokens, hnum⟩ := List.exists_mem_of_ne_nil _ hnonempty
        split
        · -- the source cannot be loaded, so no count of it can be drawn
          rename_i e caches' hprepare
          rw [hprepare] at hload hsound
          refine ⟨hsound, fun batches => iff_of_false nofun fun hbatches => ?_⟩
          obtain ⟨folded, hdrawn⟩ := halone batches hbatches numTokens hnum
          rw [ExpertDemand.drawAlone_eq, ← hload] at hdrawn
          cases hdrawn
        · rename_i prepared caches' hprepare
          rw [hprepare] at hload hsound hfolded
          split
          · rename_i e hfails
            refine ⟨hsound, fun batches => iff_of_false nofun fun hbatches => ?_⟩
            obtain ⟨drawn, hdrawn⟩ := exists_drawn caches hload.symm (halone batches hbatches)
            rw [hdrawn] at hfails
            cases hfails
          · rename_i drawn hdrawn
            obtain ⟨hentries, hkeys⟩ := drawn_alone hload.symm hdrawn
            have hsound' := hsound.insertFolds call.key hentries
            refine ⟨hsound', fun batches => ?_⟩
            rw [gather_eq hsound' fun numTokens hnum => ?_]
            rw [Caches.mem_known_insertFolds, hkeys, mem_missing]
            by_cases hknown : numTokens ∈ caches.known call.key
            · refine .inr ?_
              rwa [Caches.known, show caches'.folded = caches.folded from hfolded]
            · exact .inl ⟨hnum, hknown⟩

end BatchesCall

/-- Every call of a run, whatever was asked before it, returns what drawing each of its
counts alone from the files returns. -/
theorem batches_alone (files : Files) (calls : List BatchesCall) :
    List.Forall₂ (fun call result => ∀ batches : List (List Nat),
      result = .ok batches ↔ call.alone files = .ok batches)
      calls (runBatches files .empty calls) := by
  have hrun : ∀ (calls : List BatchesCall) (caches : Caches), caches.Sound files →
      List.Forall₂ (fun call result => ∀ batches : List (List Nat),
        result = .ok batches ↔ call.alone files = .ok batches)
        calls (runBatches files caches calls) := by
    intro calls
    induction calls with
    | nil => exact fun caches _ => .nil
    | cons call calls ih =>
      intro caches hsound
      obtain ⟨hsound', hresult⟩ := BatchesCall.perExpertBatches_spec hsound call
      exact .cons hresult (ih _ hsound')
  exact hrun calls .empty Caches.sound_empty

end ServingSim
