import ServingSim.Timing.RoutedTokens

/-
  The transfers of an expert-parallel token (`op::moe`, `op::moe::sim`).

  A token resides on a group of ranks and is sent to the ranks of the experts it is routed
  to, over a network of domains; their results are reduced to the group's primary rank and
  delivered to the group. Six stages price the bytes that each rank sends and receives.

  `price_token` only ever adds a hidden vector's bytes to what one rank sends and another
  receives in a stage: such a pair is a hop, and the loops are written as the lists of
  their hops. Every caller has its `ep_size` from a `u16`, so a rank is not cut off by its
  type; byte counts are naturals.
-/

namespace ServingSim

namespace MoeNet

/-! ## Stages -/

inductive P2pTier where
  | intraDomain
  | interDomain
  deriving DecidableEq, Repr

inductive Stage where
  | dispatchInter
  | dispatchIntra
  | combineIntraReduce
  | combineInterReduce
  | combineInterBcast
  | combineIntraFanout
  deriving DecidableEq, Repr

def Stage.name : Stage → String
  | .dispatchInter => "moe_dispatch_inter"
  | .dispatchIntra => "moe_dispatch_intra"
  | .combineIntraReduce => "moe_combine_intra_reduce"
  | .combineInterReduce => "moe_combine_inter_reduce"
  | .combineInterBcast => "moe_combine_inter_bcast"
  | .combineIntraFanout => "moe_combine_intra_fanout"

def Stage.tier : Stage → P2pTier
  | .dispatchInter => .interDomain
  | .dispatchIntra => .intraDomain
  | .combineIntraReduce => .intraDomain
  | .combineInterReduce => .interDomain
  | .combineInterBcast => .interDomain
  | .combineIntraFanout => .intraDomain

/-- One stage's bytes by rank. -/
structure MoeStep where
  name : String
  tier : P2pTier
  sendBytes : List Nat
  recvBytes : List Nat
  deriving DecidableEq, Repr

def MoeStep.empty (stage : Stage) (epSize : Nat) : MoeStep :=
  ⟨stage.name, stage.tier, List.replicate epSize 0, List.replicate epSize 0⟩

/-- The six stages' bytes. -/
abbrev Steps := Stage → MoeStep

/-! ## Placement and layout -/

inductive Placement where
  | roundRobin
  | replicatedHeadParallel (hpSize : Nat)
  deriving DecidableEq, Repr

/-- Where a token resides: the first rank, and how many. -/
def Placement.residingGroup (placement : Placement) (tokenIdx epSize : Nat) : Nat × Nat :=
  let ep := max epSize 1
  let owner := tokenIdx % ep
  match placement with
  | .roundRobin => (owner, 1)
  | .replicatedHeadParallel hpSize =>
    let hp := min (max hpSize 1) ep
    let start := owner / hp * hp
    (start, min hp (ep - start))

structure NvlLayout where
  domainStarts : List Nat
  domainSizes : List Nat

/-- Where each domain starts, from the sizes of those before it. -/
def startsFrom : Nat → List Nat → List Nat
  | _, [] => []
  | acc, n :: sizes => acc :: startsFrom (acc + n) sizes

namespace NvlLayout

def new (epSize nvlNumGpu : Nat) : NvlLayout :=
  let sizes := ranksPerNvlDomain epSize nvlNumGpu
  ⟨startsFrom 0 sizes, sizes⟩

def numDomains (layout : NvlLayout) : Nat := layout.domainSizes.length

def domainSize (layout : NvlLayout) (domain : Nat) : Except String Nat :=
  index layout.domainSizes domain

def firstRank (layout : NvlLayout) (domain : Nat) : Except String Nat :=
  index layout.domainStarts domain

def domainOf (layout : NvlLayout) (rank : Nat) : Nat :=
  ((layout.domainStarts.zip layout.domainSizes).findIdx? fun domain =>
    domain.1 ≤ rank && rank < domain.1 + domain.2).getD (layout.domainStarts.length - 1)

/-- The rank of a domain at the same place as `rank` in its own, wrapped. -/
def railPeer (layout : NvlLayout) (rank domain : Nat) : Except String Nat := do
  let srcStart ← index layout.domainStarts (layout.domainOf rank)
  let size ← layout.domainSize domain
  let start ← layout.firstRank domain
  .ok (start + (rank - srcStart) % max size 1)

end NvlLayout

/-! ## One token -/

/-- A token's residing ranks and the leader of the group. -/
structure Home where
  tokenIndex : Nat
  residingStart : Nat
  residingEnd : Nat
  primary : Nat
  primaryDomain : Nat

def Home.of (tokenIndex : Nat) (placement : Placement) (epSize : Nat) (layout : NvlLayout) :
    Home :=
  let group := placement.residingGroup tokenIndex epSize
  let primary := group.1 + tokenIndex % group.2
  ⟨tokenIndex, group.1, group.1 + group.2, primary, layout.domainOf primary⟩

def Home.isResident (home : Home) (rank : Nat) : Prop :=
  home.residingStart ≤ rank ∧ rank < home.residingEnd

instance (home : Home) (rank : Nat) : Decidable (home.isResident rank) :=
  inferInstanceAs (Decidable (_ ∧ _))

/-- The resident ranks of a domain, from the first to before the last; none if these meet. -/
def Home.residentsInDomain (home : Home) (layout : NvlLayout) (domain : Nat) :
    Except String (Nat × Nat) := do
  let domainStart ← layout.firstRank domain
  let domainSize ← layout.domainSize domain
  .ok (max home.residingStart domainStart, min home.residingEnd (domainStart + domainSize))

/-- One of a window's ranks, by the token's index. -/
def Home.rotate (home : Home) (windowStart windowSize : Nat) : Nat :=
  windowStart + home.tokenIndex % windowSize

/-- A hidden vector sent in a stage. -/
structure StageHop where
  stage : Stage
  sender : Nat
  receiver : Nat
  deriving DecidableEq, Repr

/-- Deliver the token to a rank that it hits, and reduce the rank's part to the gateway. -/
def hitHops (home : Home) (hasResident : Bool) (gateway hit : Nat) : List StageHop :=
  let needsDispatch := if hasResident then ¬home.isResident hit else hit ≠ gateway
  (if needsDispatch then [⟨.dispatchIntra, gateway, hit⟩] else []) ++
    if hit ≠ gateway then [⟨.combineIntraReduce, hit, gateway⟩] else []

/-- Dispatch to a domain that is hit, and reduction of what it yields. -/
def domainHops (home : Home) (layout : NvlLayout) (hitRank : List Bool) (domain : Nat) :
    Except String (List StageHop) := do
  let domainStart ← layout.firstRank domain
  let domainSize ← layout.domainSize domain
  let residents ← home.residentsInDomain layout domain
  let hasResident := decide (residents.1 < residents.2)
  let gateway ←
    if hasResident then .ok (home.rotate residents.1 (residents.2 - residents.1))
    else layout.railPeer home.primary domain
  let hits ← (List.range' domainStart domainSize).mapM fun hit => do
    let wasHit ← index hitRank hit
    .ok (if wasHit then hitHops home hasResident gateway hit else [])
  .ok ((if hasResident then [] else [⟨.dispatchInter, home.primary, gateway⟩]) ++
    (if domain ≠ home.primaryDomain then [⟨.combineInterReduce, gateway, home.primary⟩] else []) ++
    hits.flatten)

/-- Delivery of the result to the residents of a domain. -/
def deliveryHops (home : Home) (layout : NvlLayout) (domain : Nat) :
    Except String (List StageHop) := do
  let residents ← home.residentsInDomain layout domain
  if residents.2 ≤ residents.1 then .ok []
  else
    let landing := home.rotate residents.1 (residents.2 - residents.1)
    let resultHolder := if domain = home.primaryDomain then home.primary else landing
    .ok ((if domain = home.primaryDomain then []
        else [⟨.combineInterBcast, home.primary, landing⟩]) ++
      ((List.range' residents.1 (residents.2 - residents.1)).filter (· ≠ resultHolder)).map
        fun resident => ⟨.combineIntraFanout, resultHolder, resident⟩)

/-- The hops of one token. -/
def tokenHops (tokenIndex : Nat) (hitRank hitDom : List Bool) (placement : Placement)
    (epSize : Nat) (layout : NvlLayout) : Except String (List StageHop) := do
  let home := Home.of tokenIndex placement epSize layout
  let dispatch ← hitDom.zipIdx.mapM fun domain =>
    if domain.1 then domainHops home layout hitRank domain.2 else .ok []
  let delivery ← (List.range layout.numDomains).mapM (deliveryHops home layout)
  .ok (dispatch.flatten ++ delivery.flatten)

/-- One more hidden vector from a rank to another. -/
def charge (hiddenBytes : Nat) (steps : Steps) (hop : StageHop) : Except String Steps := do
  let step := steps hop.stage
  let sendBytes ← bump step.sendBytes hop.sender hiddenBytes
  let recvBytes ← bump step.recvBytes hop.receiver hiddenBytes
  .ok (Function.update steps hop.stage { step with sendBytes, recvBytes })

def priceToken (tokenIndex : Nat) (hitRank hitDom : List Bool) (placement : Placement)
    (epSize hiddenBytes : Nat) (layout : NvlLayout) (steps : Steps) : Except String Steps := do
  let hops ← tokenHops tokenIndex hitRank hitDom placement epSize layout
  hops.foldlM (charge hiddenBytes) steps

/-! ## A simulation -/

/-- The static network shape. -/
structure MoeNetParams where
  epSize : Nat
  nvlNumGpu : Nat
  hiddenBytes : Nat

def simulateOnce (ppm : List Nat) (topK : Nat) (params : MoeNetParams) (placement : Placement)
    (nTokens : Nat) (seed : SplitMix.Word) : Except String Steps := do
  let steps := fun stage => MoeStep.empty stage params.epSize
  if params.epSize = 0 ∨ params.hiddenBytes = 0 ∨ ppm = [] ∨ nTokens = 0 then .ok steps
  else
    let layout := NvlLayout.new params.epSize params.nvlNumGpu
    let routed ← forEachRoutedToken ppm topK params.epSize params.nvlNumGpu nTokens
      (RoutingRng.new seed)
    routed.1.zipIdx.foldlM (fun steps token =>
      priceToken token.2 token.1.hitRank token.1.hitDom placement params.epSize
        params.hiddenBytes layout steps) steps

end MoeNet

end ServingSim
