import ServingSim.Timing.ExpertFold

/-
  Recorded per-token expert routes, sampled in contiguous groups
  (`timing::token_corpus`).

  A `TokenCorpus` carries what `load` validated: its dimensions, and a payload of that
  size with every expert in range. So its windows lie inside the recorded tokens, and
  the samplers below cannot fail before the fold.

  The samplers are two. `sampleLayerCountsAscending` walks ascending token counts in one
  pass and draws a count's partial window on a copy of the stream. `drawCounts` draws one
  count on its own, window by window from the seed; it is the reference the source's
  tests keep.

  The files are a function from paths to bytes; ids are numbers. Counts stay below the
  tokens drawn, which fit `u32`.
-/

namespace ServingSim

/-! ## The corpus -/

structure TokenCorpusConfig where
  schemaVersion : Nat
  dataFile : String
  numTokens : Nat
  numLayers : Nat
  numExperts : Nat
  topK : Nat
  checksum : SplitMix.Word
  /-- Consecutive recorded positions per draw. -/
  groupSize : Nat
  layerStart : Nat
  layerEnd : Nat
  seed : SplitMix.Word
  /-- Candidate draws to choose between. -/
  samplingCandidates : Nat
  deriving DecidableEq, Repr

/-- What identifies a payload: the file, its checksum, and the dimensions it was
validated against. -/
structure CorpusKey where
  dataFile : String
  checksum : SplitMix.Word
  numTokens : Nat
  numLayers : Nat
  numExperts : Nat
  topK : Nat
  deriving DecidableEq, Repr

/-- The checks on one token's experts in one layer. -/
def checkSelected (numExperts : Nat) : List Nat → List Nat → Except String Unit
  | _, [] => .ok ()
  | before, expert :: selected => do
    ensure (expert < numExperts) "expert ID outside corpus expert range"
    ensure (expert ∉ before) "duplicate expert in a token's top-k"
    checkSelected numExperts (before ++ [expert]) selected

/-- Expert ids of that size that passed the checks. -/
structure Payload (key : CorpusKey) where
  ids : List Nat
  length : ids.length = key.numTokens * key.numLayers * key.topK
  selected : forM (chunksExact key.topK ids) (checkSelected key.numExperts []) = .ok ()

namespace TokenCorpusConfig

def key (config : TokenCorpusConfig) : CorpusKey where
  dataFile := config.dataFile
  checksum := config.checksum
  numTokens := config.numTokens
  numLayers := config.numLayers
  numExperts := config.numExperts
  topK := config.topK

def validate (config : TokenCorpusConfig) : Except String Unit := do
  ensure (config.schemaVersion = 1) "unsupported token corpus version"
  ensure (0 < config.samplingCandidates) "sampling_candidates must be positive"
  ensure (0 < config.groupSize) "token corpus group size must be positive"
  ensure (config.groupSize ≤ config.numTokens)
    "token corpus is shorter than one sampling group"
  ensure (config.layerStart < config.layerEnd ∧ config.layerEnd ≤ config.numLayers)
    ("token corpus layer slice " ++ toString config.layerStart ++ ".." ++
      toString config.layerEnd ++ " is not inside its " ++ toString config.numLayers ++ " layers")
  ensure (0 < config.numLayers ∧ 0 < config.topK ∧ config.topK ≤ config.numExperts ∧
    config.numExperts ≤ 65536) "invalid token corpus dimensions"

end TokenCorpusConfig

/-- A validated corpus with its payload resident. -/
structure TokenCorpus where
  config : TokenCorpusConfig
  payload : Payload config.key
  valid : config.validate = .ok ()

/-! ## Reading a payload -/

abbrev Files := String → Option (List UInt8)

/-- FNV-1a. -/
def fnv1a (bytes : List UInt8) : SplitMix.Word :=
  bytes.foldl (fun hash byte => (hash ^^^ BitVec.ofNat 64 byte.toNat) * 0x00000100000001b3)
    0xcbf29ce484222325

/-- `u16::from_le_bytes` of the pairs of bytes. -/
def pairs : List UInt8 → List Nat
  | low :: high :: bytes => (low.toNat + 256 * high.toNat) :: pairs bytes
  | _ => []

/-- `checked_mul` of `usize`. -/
def checkedMul (a b : Nat) : Option Nat := if a * b < 2 ^ 64 then some (a * b) else none

def expectedBytes (key : CorpusKey) : Option Nat := do
  let tokens ← checkedMul key.numTokens key.numLayers
  let ids ← checkedMul tokens key.topK
  checkedMul ids 2

theorem length_pairs (bytes : List UInt8) : (pairs bytes).length = bytes.length / 2 := by
  induction bytes using pairs.induct with
  | case1 low high bytes ih =>
    rw [pairs, List.length_cons, ih, List.length_cons, List.length_cons]
    omega
  | case2 bytes hshort =>
    match bytes, hshort with
    | [], _ => rfl
    | [_], _ => simp [pairs]
    | low :: high :: bytes, hshort => exact absurd rfl (hshort low high bytes)

theorem checkedMul_eq {a b c : Nat} (h : checkedMul a b = some c) : c = a * b := by
  unfold checkedMul at h
  split at h
  · exact (Option.some.inj h).symm
  · cases h

theorem length_of_expectedBytes {key : CorpusKey} {expected : Nat} {bytes : List UInt8}
    (hexpected : expectedBytes key = some expected) (hlength : bytes.length = expected) :
    (pairs bytes).length = key.numTokens * key.numLayers * key.topK := by
  simp only [expectedBytes, Option.bind_eq_bind, Option.bind_eq_some_iff] at hexpected
  obtain ⟨tokens, htokens, ids, hids, hbytes⟩ := hexpected
  rw [length_pairs, hlength, checkedMul_eq hbytes, checkedMul_eq hids, checkedMul_eq htokens]
  omega

/-- The payload of a file, checked against what names it. -/
def readPayload (files : Files) (key : CorpusKey) : Except String (Payload key) :=
  match files key.dataFile with
  | none => .error "reading token corpus data"
  | some bytes =>
    match hexpected : expectedBytes key with
    | none => .error "token corpus size overflow"
    | some expected =>
      if hlength : bytes.length = expected then
        if fnv1a bytes = key.checksum then
          match hselected : forM (chunksExact key.topK (pairs bytes))
              (checkSelected key.numExperts []) with
          | .ok () =>
            .ok ⟨pairs bytes, length_of_expectedBytes hexpected hlength, hselected⟩
          | .error e => .error e
        else .error "token corpus checksum mismatch"
      else .error "token corpus byte length does not match metadata"

namespace TokenCorpus

/-- Read and verify the payload of a config. -/
def load (files : Files) (config : TokenCorpusConfig) : Except String TokenCorpus :=
  match hvalid : config.validate with
  | .ok () => do
    let payload ← readPayload files config.key
    return ⟨config, payload, hvalid⟩
  | .error e => .error e

/-- A payload already read, under another config's sampling parameters. -/
def rebind (config : TokenCorpusConfig) (payload : Payload config.key) :
    Except String TokenCorpus :=
  match hvalid : config.validate with
  | .ok () => .ok ⟨config, payload, hvalid⟩
  | .error e => .error e

theorem rebind_eq_load {files : Files} {config : TokenCorpusConfig} {payload : Payload config.key}
    (h : readPayload files config.key = .ok payload) :
    rebind config payload = load files config := by
  rw [rebind, load, h]
  split <;> rfl

/-! ## Windows -/

variable (corpus : TokenCorpus)

theorem groupSize_pos : 0 < corpus.config.groupSize := by
  have hvalid := corpus.valid
  simp only [TokenCorpusConfig.validate, check_then_eq_ok_iff, ensure_eq_ok_iff] at hvalid
  exact hvalid.2.2.1

/-- One histogram for each layer of the slice. -/
abbrev Histograms := List (List Nat)

/-- A stream of windows, and what they counted. -/
structure Draw where
  state : SplitMix.Word
  counts : Histograms

/-- The start of the next `take` tokens. -/
def windowStart (state : SplitMix.Word) (take : Nat) : Nat × SplitMix.Word :=
  (SplitMix.below (corpus.config.numTokens - take + 1) state).get
    (SplitMix.below_isSome (Nat.succ_pos _) state)

/-- The experts a token selected in a layer. -/
def selectedExperts (token layer : Nat) : List Nat :=
  (corpus.payload.ids.drop ((token * corpus.config.numLayers + layer) * corpus.config.topK)).take
    corpus.config.topK

/-- Count the `take` recorded tokens from `start`. -/
def addWindow (counts : Histograms) (start take : Nat) : Histograms :=
  (List.range' start take).foldl
    (fun counts token => (counts.zipIdx corpus.config.layerStart).map fun (row, layer) =>
      (corpus.selectedExperts token layer).foldl (fun row expert => row.modify expert (· + 1)) row)
    counts

def drawWindow (take : Nat) (draw : Draw) : Draw :=
  let (start, state) := corpus.windowStart draw.state take
  ⟨state, corpus.addWindow draw.counts start take⟩

/-- Nothing drawn yet from a seed. -/
def emptyDraw (seed : SplitMix.Word) : Draw where
  state := seed
  counts := List.replicate (corpus.config.layerEnd - corpus.config.layerStart)
    (List.replicate corpus.config.numExperts 0)

/-! ## One pass over ascending counts -/

/-- Draw full windows while another one fits `numTokens`. -/
def fillWindows (numTokens fullTokens : Nat) (draw : Draw) : Nat × Draw :=
  if fullTokens + corpus.config.groupSize ≤ numTokens then
    fillWindows numTokens (fullTokens + corpus.config.groupSize)
      (corpus.drawWindow corpus.config.groupSize draw)
  else (fullTokens, draw)
termination_by numTokens - fullTokens
decreasing_by
  have := corpus.groupSize_pos
  omega

variable {T : Type} (fold : Histograms → Except String T)

/-- The counts one by one: full windows stay, a rest is drawn on a copy. -/
def walk : List Nat → Nat → Draw → Except String (List T)
  | [], _, _ => .ok []
  | numTokens :: tokenCounts, fullTokens, draw => do
    let (fullTokens, draw) := corpus.fillWindows numTokens fullTokens draw
    let rest := numTokens - fullTokens
    let folded ←
      if rest = 0 then fold draw.counts else fold (corpus.drawWindow rest draw).counts
    let others ← walk tokenCounts fullTokens draw
    return folded :: others

def sampleLayerCountsAscending (tokenCounts : List Nat) (seed : SplitMix.Word) :
    Except String (List T) := do
  ensure (∀ pair ∈ tokenCounts.zip tokenCounts.tail, pair.1 ≤ pair.2)
    "token counts must be ascending"
  corpus.walk fold tokenCounts 0 (corpus.emptyDraw seed)

/-! ## One count on its own -/

/-- Draw what is left, window by window of at most `groupSize` tokens. -/
def drawCounts (remaining : Nat) (draw : Draw) : Histograms :=
  if remaining = 0 then draw.counts
  else
    let take := min remaining corpus.config.groupSize
    drawCounts (remaining - take) (corpus.drawWindow take draw)
termination_by remaining
decreasing_by
  have := corpus.groupSize_pos
  omega

/-! ## Candidates -/

/-- Decorrelates the candidate seeds. -/
def candidateStride : SplitMix.Word := 0xd1b54a32d192ed03

def candidateSeed (draw : Nat) : SplitMix.Word :=
  corpus.config.seed + BitVec.ofNat 64 draw * candidateStride

/-- Candidate `draw` at each of the ascending counts. -/
def candidatesAscending (tokenCounts : List Nat) (expertsPerRank draw : Nat) :
    Except String (List (List Nat)) :=
  corpus.sampleLayerCountsAscending (fun counts => foldLayerwise counts expertsPerRank)
    tokenCounts (corpus.candidateSeed draw)

def candidate (numTokens expertsPerRank draw : Nat) : Except String (List Nat) := do
  let candidates ← corpus.candidatesAscending [numTokens] expertsPerRank draw
  match candidates.getLast? with
  | some folded => return folded
  | none => .error "one token count, one candidate"

/-- Draw the candidates of one count and return the most central one. -/
def sampleAndFold (numTokens expertsPerRank : Nat) : Except String (List Nat) := do
  let candidates ←
    (List.range corpus.config.samplingCandidates).mapM (corpus.candidate numTokens expertsPerRank)
  selectCandidate candidates expertsPerRank

/-- A candidate drawn on its own. -/
def drawCandidate (numTokens expertsPerRank draw : Nat) : Except String (List Nat) :=
  foldLayerwise (corpus.drawCounts numTokens (corpus.emptyDraw (corpus.candidateSeed draw)))
    expertsPerRank

/-- The central one of the candidates drawn on their own. -/
def drawAlone (numTokens expertsPerRank : Nat) : Except String (List Nat) := do
  let candidates ← (List.range corpus.config.samplingCandidates).mapM
    (corpus.drawCandidate numTokens expertsPerRank)
  selectCandidate candidates expertsPerRank

/-! ## One pass draws what each count draws alone -/

theorem drawCounts_fullWindow {remaining : Nat} (draw : Draw)
    (h : corpus.config.groupSize ≤ remaining) :
    corpus.drawCounts remaining draw = corpus.drawCounts (remaining - corpus.config.groupSize)
        (corpus.drawWindow corpus.config.groupSize draw) := by
  have hpos := corpus.groupSize_pos
  rw [drawCounts, if_neg (by omega)]
  simp only [Nat.min_eq_right h]

theorem drawCounts_rest {rest : Nat} (draw : Draw) (h : rest < corpus.config.groupSize) :
    corpus.drawCounts rest draw =
      if rest = 0 then draw.counts else (corpus.drawWindow rest draw).counts := by
  rw [drawCounts]
  split
  · rfl
  · simp only [Nat.min_eq_left h.le, Nat.sub_self]
    rw [drawCounts, if_pos rfl]

/-- The stream stands behind the full windows that every count from `fullTokens` on
begins with. -/
def Walked (seed : SplitMix.Word) (fullTokens : Nat) (draw : Draw) : Prop :=
  ∀ numTokens : Nat, fullTokens ≤ numTokens → corpus.drawCounts numTokens (corpus.emptyDraw seed) =
      corpus.drawCounts (numTokens - fullTokens) draw

variable {corpus}

theorem Walked.fillWindows {seed : SplitMix.Word} {numTokens fullTokens : Nat} {draw : Draw}
    (h : corpus.Walked seed fullTokens draw) (hle : fullTokens ≤ numTokens) :
    corpus.Walked seed (corpus.fillWindows numTokens fullTokens draw).1
        (corpus.fillWindows numTokens fullTokens draw).2 ∧
      (corpus.fillWindows numTokens fullTokens draw).1 ≤ numTokens ∧
      numTokens < (corpus.fillWindows numTokens fullTokens draw).1 + corpus.config.groupSize := by
  induction fullTokens, draw using fillWindows.induct corpus numTokens with
  | case1 fullTokens draw hfits ih =>
    rw [TokenCorpus.fillWindows, if_pos hfits]
    refine ih (fun other hother => ?_) hfits
    rw [h other (by omega), corpus.drawCounts_fullWindow draw (by omega), Nat.sub_add_eq]
  | case2 fullTokens draw hfull =>
    rw [TokenCorpus.fillWindows, if_neg hfull]
    exact ⟨h, hle, by show numTokens < fullTokens + _; omega⟩

theorem walk_eq {seed : SplitMix.Word} (tokenCounts : List Nat) (fullTokens : Nat) (draw : Draw)
    (h : corpus.Walked seed fullTokens draw)
    (hascending : (fullTokens :: tokenCounts).Pairwise (· ≤ ·)) :
    corpus.walk fold tokenCounts fullTokens draw = tokenCounts.mapM fun numTokens =>
        fold (corpus.drawCounts numTokens (corpus.emptyDraw seed)) := by
  induction tokenCounts generalizing fullTokens draw with
  | nil => rfl
  | cons numTokens tokenCounts ih =>
    obtain ⟨hfirst, hrest⟩ := List.pairwise_cons.mp hascending
    obtain ⟨hwalked, hle, hlt⟩ := h.fillWindows (hfirst numTokens List.mem_cons_self)
    rw [walk, List.mapM_cons]
    set filled := corpus.fillWindows numTokens fullTokens draw with hfilled
    have hcounts : fold (corpus.drawCounts numTokens (corpus.emptyDraw seed)) =
        if numTokens - filled.1 = 0 then fold filled.2.counts
        else fold (corpus.drawWindow (numTokens - filled.1) filled.2).counts := by
      rw [hwalked numTokens hle, corpus.drawCounts_rest filled.2 (by omega)]
      split <;> rfl
    have hothers := ih filled.1 filled.2 hwalked (List.pairwise_cons.mpr
      ⟨fun other hother => hle.trans ((List.pairwise_cons.mp hrest).1 other hother),
        (List.pairwise_cons.mp hrest).2⟩)
    rw [hcounts]
    simp only [hothers]
    split <;> rfl

theorem sampleLayerCountsAscending_eq {tokenCounts : List Nat} (seed : SplitMix.Word)
    (hascending : tokenCounts.Pairwise (· ≤ ·)) :
    corpus.sampleLayerCountsAscending fold tokenCounts seed = tokenCounts.mapM fun numTokens =>
        fold (corpus.drawCounts numTokens (corpus.emptyDraw seed)) := by
  have hpairs : ∀ pair ∈ tokenCounts.zip tokenCounts.tail, pair.1 ≤ pair.2 := by
    intro pair hpair
    obtain ⟨i, hi⟩ := List.getElem?_of_mem hpair
    obtain ⟨hleft, hright⟩ := List.getElem?_zip_eq_some.mp hi
    rw [List.getElem?_tail] at hright
    obtain ⟨hlt, heq⟩ := List.getElem?_eq_some_iff.mp hleft
    obtain ⟨hlt', heq'⟩ := List.getElem?_eq_some_iff.mp hright
    rw [← heq, ← heq']
    exact List.pairwise_iff_getElem.mp hascending i (i + 1) hlt hlt' (Nat.lt_succ_self i)
  rw [sampleLayerCountsAscending, ensure_eq_ok_iff.mpr hpairs]
  exact walk_eq fold tokenCounts 0 _ (fun numTokens _ => by rw [Nat.sub_zero])
    (List.pairwise_cons.mpr ⟨fun other _ => Nat.zero_le other, hascending⟩)

theorem candidate_eq (numTokens expertsPerRank draw : Nat) :
    corpus.candidate numTokens expertsPerRank draw =
      corpus.drawCandidate numTokens expertsPerRank draw := by
  rw [candidate, candidatesAscending,
    sampleLayerCountsAscending_eq _ _ (List.pairwise_singleton _ _), List.mapM_cons, drawCandidate]
  cases foldLayerwise (corpus.drawCounts numTokens (corpus.emptyDraw (corpus.candidateSeed draw)))
    expertsPerRank <;> rfl

theorem sampleAndFold_eq (numTokens expertsPerRank : Nat) :
    corpus.sampleAndFold numTokens expertsPerRank = corpus.drawAlone numTokens expertsPerRank := by
  rw [sampleAndFold, drawAlone]
  rw [show corpus.candidate numTokens expertsPerRank =
    corpus.drawCandidate numTokens expertsPerRank from
      funext fun draw => candidate_eq numTokens expertsPerRank draw]

end TokenCorpus

end ServingSim
