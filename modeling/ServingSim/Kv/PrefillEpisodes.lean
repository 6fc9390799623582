import Mathlib.Data.List.ModifyLast
import ServingSim.Kv.IssuedStore
import ServingSim.Kv.OpEffects
import ServingSim.Lib.EndToEnd

/-
  What the prefills of a request went through, read off the operations on the store.

  A reservation opens an episode. Each chunk scheduled in it is noted as the engine reads
  it (`active_chunk`: where it starts and how many tokens it has), each completed chunk
  with its tokens, and the start of the decode. A request retracted and prefilled again
  has an episode for each reservation.
-/

namespace ServingSim

open EndToEnd KvCacheStore

/-- One reservation of a request, and what was done under it. -/
structure PrefillEpisode where
  /-- Tokens the cache serves: the resident hit. -/
  resident : Nat
  toCompute : Nat
  /-- The chunks scheduled, each with its start and its tokens. -/
  chunks : List (Nat × Nat)
  /-- Tokens of the chunks the store was told are complete. -/
  completed : Nat
  /-- The tokens complete at each start of a decode. -/
  decodes : List Nat
  deriving DecidableEq, Repr

namespace PrefillEpisode

def opened (resolved : ResolvedPrefillContext) : PrefillEpisode :=
  ⟨resolved.residentPrefixTokens, resolved.prefillTokensToCompute, [], 0, []⟩

/-- Note the chunk that a context shows as active. -/
def schedule (context : Option ResolvedPrefillContext) (e : PrefillEpisode) : PrefillEpisode :=
  { e with chunks := e.chunks ++ (context.map ResolvedPrefillContext.activeChunk).toList }

/-- Note that the active chunk of a context is complete. -/
def complete (context : Option ResolvedPrefillContext) (e : PrefillEpisode) : PrefillEpisode :=
  { e with completed := e.completed + context.elim 0 fun context => context.activeChunkTokens }

def startDecode (e : PrefillEpisode) : PrefillEpisode :=
  { e with decodes := e.decodes ++ [e.completed] }

end PrefillEpisode

/-- What an operation on `store` adds to the episodes of a request. -/
def StoreOp.observe {acc : KvAccounting} {n : Nat} (r : RequestId) (store : KvCacheStore acc n)
    (op : StoreOp n) (episodes : List PrefillEpisode) : List PrefillEpisode :=
  if op.subject = some r then
    match op with
    | .reserveChunkedPrefillContext _ _ resolved _ => episodes ++ [.opened resolved]
    | .schedulePrefillChunk _ _ _ =>
      episodes.modifyLast (.schedule ((op.apply store).ledger.viewOf r).context)
    | .completePrefillChunk _ => episodes.modifyLast (.complete (store.ledger.viewOf r).context)
    | .finishChunkedPrefill _ _ _ => episodes.modifyLast .startDecode
    | _ => episodes
  else episodes

namespace IssuedStore

variable {acc : KvAccounting} {n : Nat}

/-- The episodes of a request in the operations issued from a store on. -/
def episodesFrom (r : RequestId) :
    KvCacheStore acc n → List PrefillEpisode → List (StoreOp n) → List PrefillEpisode
  | _, episodes, [] => episodes
  | store, episodes, op :: ops =>
    episodesFrom r (op.apply store) (op.observe r store episodes) ops

/-- The prefill episodes of a request since the store was new. -/
def episodes (kv : IssuedStore acc n) (r : RequestId) : List PrefillEpisode :=
  episodesFrom r (KvCacheStore.new acc n kv.budget) [] kv.ops

theorem episodesFrom_append (r : RequestId) (store : KvCacheStore acc n)
    (episodes : List PrefillEpisode) (ops : List (StoreOp n)) (op : StoreOp n) :
    episodesFrom r store episodes (ops ++ [op]) =
      op.observe r (store.runOps ops) (episodesFrom r store episodes ops) := by
  induction ops generalizing store episodes with
  | nil => rfl
  | cons first ops ih => exact ih (first.apply store) (first.observe r store episodes)

@[simp] theorem episodes_new (budget : PrefixCacheBudget) (r : RequestId) :
    (new acc n budget).episodes r = [] := rfl

theorem episodes_issue (kv : IssuedStore acc n) (op : StoreOp n) (r : RequestId) :
    (kv.issue op).episodes r = op.observe r kv.store (kv.episodes r) := by
  rw [kv.store_eq]
  exact episodesFrom_append r _ _ kv.ops op

theorem episodes_issue_of_ne (kv : IssuedStore acc n) {op : StoreOp n} {r : RequestId}
    (h : op.subject ≠ some r) : (kv.issue op).episodes r = kv.episodes r := by
  rw [episodes_issue]
  exact if_neg h

/-- The operations about a prefill. -/
def Prefills : StoreOp n → Prop
  | .reserveChunkedPrefillContext _ _ _ _ | .schedulePrefillChunk _ _ _
  | .completePrefillChunk _ | .finishChunkedPrefill _ _ _ => True
  | _ => False

theorem episodes_issue_of_not_prefills (kv : IssuedStore acc n) {op : StoreOp n}
    (h : ¬ Prefills op) (r : RequestId) : (kv.issue op).episodes r = kv.episodes r := by
  rw [episodes_issue]
  unfold StoreOp.observe
  split
  · cases op with
    | reserveChunkedPrefillContext _ _ _ _ | schedulePrefillChunk _ _ _ | completePrefillChunk _
    | finishChunkedPrefill _ _ _ => exact absurd trivial h
    | _ => rfl
  · rfl

theorem Issues.episodes {C : KvCacheStore acc n → StoreOp n → Prop} {s t : IssuedStore acc n}
    (h : Issues C s t) (hC : ∀ store op, C store op → ¬ Prefills op) (r : RequestId) :
    t.episodes r = s.episodes r := by
  induction h with
  | refl => rfl
  | issue _ hop ih => exact (episodes_issue_of_not_prefills _ (hC _ _ hop) r).trans ih

end IssuedStore

/-! ## Tiling -/

/-- The chunks of an episode lie end to end from the resident hit on and do not pass the
prefill's end; its decode started once at most, after the last of them was complete. -/
structure Tiling (e : PrefillEpisode) : Prop where
  laid : LaidFrom e.resident e.chunks
  within : total e.chunks ≤ e.toCompute
  completed : e.completed ≤ total e.chunks
  decodes : e.decodes = [] ∨ e.decodes = [e.toCompute] ∧ e.completed = e.toCompute

/-- An episode with chunks scheduled is where its context says: `processed` tokens complete,
the active chunk's scheduled on top. -/
structure Current (e : PrefillEpisode) (context : ResolvedPrefillContext) : Prop where
  resident : e.resident = context.residentPrefixTokens
  toCompute : e.toCompute = context.prefillTokensToCompute
  scheduled : total e.chunks = context.processedPrefillTokens + context.activeChunkTokens
  completed : e.completed = context.processedPrefillTokens
  decodes : e.decodes = []

namespace Tiling

variable {e : PrefillEpisode} {context : ResolvedPrefillContext}

theorem opened {resolved : ResolvedPrefillContext} (metadata : Option PrefixCacheReturnMetadata)
    (hnew : resolved.processedPrefillTokens = 0) {tokens : Nat} (hpositive : 0 < tokens)
    (hfit : tokens ≤ resolved.remainingPrefillTokens) :
    let context := { resolved with cacheReturnMetadata := metadata }.scheduleChunk tokens
    let e := (PrefillEpisode.opened resolved).schedule (some context)
    Tiling e ∧ Current e context := by
  intro context e
  have hchunks : e.chunks = [(resolved.residentPrefixTokens, tokens)] := by
    show [(resolved.residentPrefixTokens + resolved.processedPrefillTokens, tokens)] = _
    rw [hnew, Nat.add_zero]
  have htotal : total e.chunks = tokens := by
    rw [hchunks]
    rfl
  rw [ResolvedPrefillContext.remainingPrefillTokens] at hfit
  refine ⟨⟨?_, ?_, Nat.zero_le _, .inl rfl⟩, ⟨rfl, rfl, ?_, hnew.symm, rfl⟩⟩
  · rw [hchunks]
    exact ⟨rfl, hpositive, trivial⟩
  · rw [htotal]
    exact hfit.trans (Nat.sub_le _ _)
  · rw [htotal]
    show tokens = resolved.processedPrefillTokens + tokens
    rw [hnew, Nat.zero_add]

theorem scheduled (h : Tiling e) (hcurrent : Current e context)
    (hrest : context.activeChunkTokens = 0) {tokens : Nat} (hpositive : 0 < tokens)
    (hfit : tokens ≤ context.remainingPrefillTokens) :
    Tiling (e.schedule (some (context.scheduleChunk tokens))) ∧
      Current (e.schedule (some (context.scheduleChunk tokens)))
        (context.scheduleChunk tokens) := by
  have htotal : total e.chunks = context.processedPrefillTokens := by
    rw [hcurrent.scheduled, hrest, Nat.add_zero]
  have hchunks : (e.schedule (some (context.scheduleChunk tokens))).chunks =
      e.chunks ++ [(e.resident + total e.chunks, tokens)] := by
    rw [hcurrent.resident, htotal]
    rfl
  have hsum : total (e.schedule (some (context.scheduleChunk tokens))).chunks =
      total e.chunks + tokens := by
    rw [hchunks, total_append]
    rfl
  have hcompleted := h.completed
  have htoCompute := hcurrent.toCompute
  rw [ResolvedPrefillContext.remainingPrefillTokens] at hfit
  refine ⟨⟨?_, ?_, ?_, h.decodes⟩, ⟨hcurrent.resident, hcurrent.toCompute, ?_, hcurrent.completed,
    hcurrent.decodes⟩⟩
  · rw [hchunks]
    exact h.laid.concat hpositive
  · show total (e.schedule (some (context.scheduleChunk tokens))).chunks ≤ e.toCompute
    omega
  · show e.completed ≤ total (e.schedule (some (context.scheduleChunk tokens))).chunks
    omega
  · show _ = context.processedPrefillTokens + tokens
    omega

theorem advanced (h : Tiling e) (hcurrent : Current e context) :
    Tiling (e.complete (some context)) ∧
      Current (e.complete (some context)) context.completeChunk := by
  have hscheduled := hcurrent.scheduled
  have hcompleted := hcurrent.completed
  refine ⟨⟨h.laid, h.within, ?_, .inl hcurrent.decodes⟩, ⟨hcurrent.resident, hcurrent.toCompute,
    ?_, ?_, hcurrent.decodes⟩⟩
  · show e.completed + context.activeChunkTokens ≤ total e.chunks
    omega
  · show total e.chunks = context.processedPrefillTokens + context.activeChunkTokens + 0
    omega
  · show e.completed + context.activeChunkTokens = _
    rw [hcompleted]
    rfl

theorem finished (h : Tiling e) (hcurrent : Current e context)
    (hdone : context.remainingPrefillTokens = 0) : Tiling e.startDecode := by
  have hwithin := h.within
  have hcompleted := h.completed
  have hprocessed := hcurrent.completed
  have htoCompute := hcurrent.toCompute
  rw [ResolvedPrefillContext.remainingPrefillTokens] at hdone
  have hend : e.completed = e.toCompute := by omega
  refine ⟨h.laid, h.within, h.completed, .inr ⟨?_, hend⟩⟩
  show e.decodes ++ [e.completed] = [e.toCompute]
  rw [hcurrent.decodes, hend]
  rfl

end Tiling

/-! ## The store's account -/

namespace IssuedStore

variable {acc : KvAccounting} {n : Nat} {kv kv' : IssuedStore acc n} {r : RequestId} {p : Fin n}

/-- The episodes of a request are tiled, and the last one is where the store has a request
that is being prefilled. -/
structure Recorded (kv : IssuedStore acc n) (r : RequestId) : Prop where
  tiling : ∀ e ∈ kv.episodes r, Tiling e
  current : ∀ p context, kv.store.phaseOf r = .chunked p →
    (kv.store.ledger.viewOf r).context = some context →
    ∃ earlier e, kv.episodes r = earlier ++ [e] ∧ Current e context

theorem recorded_new (budget : PrefixCacheBudget) (r : RequestId) :
    (new acc n budget).Recorded r := by
  refine ⟨?_, ?_⟩
  · intro e he
    cases he
  · intro p context hphase
    cases hphase

theorem Recorded.congr (h : kv.Recorded r) (hepisodes : kv'.episodes r = kv.episodes r)
    (hphase : kv'.store.phaseOf r = kv.store.phaseOf r)
    (hview : kv'.store.ledger.viewOf r = kv.store.ledger.viewOf r) : kv'.Recorded r := by
  refine ⟨?_, ?_⟩
  · rw [hepisodes]
    exact h.tiling
  · rw [hepisodes, hphase, hview]
    exact h.current

theorem Recorded.left (h : kv.Recorded r) (hepisodes : kv'.episodes r = kv.episodes r)
    (hphase : ∀ p, kv'.store.phaseOf r ≠ .chunked p) : kv'.Recorded r := by
  refine ⟨?_, ?_⟩
  · rw [hepisodes]
    exact h.tiling
  · intro p context hchunked
    exact absurd hchunked (hphase p)

theorem episodes_issue_last {op : StoreOp n} {earlier : List PrefillEpisode} {e e' : PrefillEpisode}
    (hepisodes : kv.episodes r = earlier ++ [e])
    (hop : op.observe r kv.store (earlier ++ [e]) = earlier ++ [e']) :
    (kv.issue op).episodes r = earlier ++ [e'] := by
  rw [episodes_issue, hepisodes, hop]

theorem observe_schedule (store : KvCacheStore acc n) (p : Fin n) (tokens : Nat)
    (earlier : List PrefillEpisode) (e : PrefillEpisode) :
    (StoreOp.schedulePrefillChunk r p tokens).observe r store (earlier ++ [e]) =
      earlier ++ [e.schedule
        ((StoreOp.apply store (.schedulePrefillChunk r p tokens)).ledger.viewOf r).context] :=
  (if_pos rfl).trans (List.modifyLast_concat _ e earlier)

theorem observe_complete (store : KvCacheStore acc n) (earlier : List PrefillEpisode)
    (e : PrefillEpisode) :
    (StoreOp.completePrefillChunk r).observe r store (earlier ++ [e]) =
      earlier ++ [e.complete (store.ledger.viewOf r).context] :=
  (if_pos rfl).trans (List.modifyLast_concat _ e earlier)

theorem observe_finish (store : KvCacheStore acc n) (p : Fin n) (remaining : Nat)
    (earlier : List PrefillEpisode) (e : PrefillEpisode) :
    (StoreOp.finishChunkedPrefill r p remaining).observe r store (earlier ++ [e]) =
      earlier ++ [e.startDecode] :=
  (if_pos rfl).trans (List.modifyLast_concat _ e earlier)

theorem recorded_of_last {earlier : List PrefillEpisode} {e : PrefillEpisode}
    (hepisodes : kv.episodes r = earlier ++ [e]) (hearlier : ∀ e ∈ earlier, Tiling e)
    (htiling : Tiling e)
    (hcurrent : ∀ p context, kv.store.phaseOf r = .chunked p →
      (kv.store.ledger.viewOf r).context = some context → Current e context) :
    kv.Recorded r := by
  refine ⟨?_, ?_⟩
  · rw [hepisodes]
    intro e' he'
    rcases List.mem_append.mp he' with he' | he'
    · exact hearlier e' he'
    · rw [List.mem_singleton.mp he']
      exact htiling
  · intro p context hphase hcontext
    exact ⟨earlier, e, hepisodes, hcurrent p context hphase hcontext⟩

end IssuedStore

end ServingSim
