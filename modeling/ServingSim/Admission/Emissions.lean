import ServingSim.Admission.DecodeCompletion
import ServingSim.Lib.SplitMix

/-
  How the output of a request came out of a speculating worker.

  A request emits one token where a prefill of it ends and as many as were accepted
  where a verify of it ends. Both are operations on the store: the prefill starts a
  decode, the verify advances the requests that accepted the same number together. The
  log of one request (`emissions`) is what these operations say about it, in order.

  A draft is accepted by a draw that is keyed by the seed, the request, the tokens it
  has emitted and the draft's position, and not taken from a stream (`bernoulli`). So
  what a verify accepts is a function of the tokens emitted before it (`Keyed`).

  The rate a request's acceptance profile gives a draft position (`at_position`) comes
  from another package; it is the parameter `rates`, with the exact value of the
  floating-point number. The draw is compared with it without rounding, as it is there:
  a word of 53 bits and a 32-bit float are both exact as 64-bit floats.
-/

namespace ServingSim

/-! ## Draws -/

/-- One draft position's draw. -/
def bernoulli (seed : SplitMix.Word) (request : RequestId)
    (outputTokensEmitted draftPosition : Nat) (acceptRate : ℚ) : Bool :=
  if acceptRate ≤ 0 then false
  else if acceptRate ≥ 1 then true
  else
    let key := seed ^^^ BitVec.ofNat 64 request * SplitMix.gamma ^^^
      BitVec.ofNat 64 outputTokensEmitted * SplitMix.firstFactor ^^^
      BitVec.ofNat 64 draftPosition * SplitMix.secondFactor
    let draw := (SplitMix.next key).1 >>> 11
    let unit : ℚ := draw.toNat / 2 ^ 53
    decide (unit < acceptRate)

/-- The completion of a worker that drafts `draftTokens` tokens, with its draws. -/
def speculativeCompletion (draftTokens maxModelLen : Nat) (seed : SplitMix.Word)
    (rates : RequestId → Nat → ℚ) (draft_pos : draftTokens > 0) : DecodeCompletion :=
  .speculative draftTokens maxModelLen
    (fun request emitted position => bernoulli seed request emitted position
      (rates request position)) draft_pos

/-! ## Limits -/

theorem resident_add_verifyQueryLen_le (residentKv draftTokens maxModelLen : Nat) :
    residentKv + verifyQueryLen residentKv draftTokens maxModelLen ≤
      max residentKv (maxModelLen - 1) := by
  unfold verifyQueryLen
  omega

theorem retiredTokens_le_limits {draftTokens maxModelLen : Nat}
    {accepts : RequestId → Nat → Nat → Bool} {draft_pos : draftTokens > 0} {r : RequestId}
    {residentKv tokens : Nat} {record : RequestRecord}
    (h : (DecodeCompletion.speculative draftTokens maxModelLen accepts draft_pos).retiredTokens r
      residentKv record = .ok tokens) :
    tokens ≤ record.remainingOutputTokens ∧
      tokens ≤ verifyQueryLen residentKv draftTokens maxModelLen ∧
      residentKv + tokens ≤ max residentKv (maxModelLen - 1) := by
  simp only [DecodeCompletion.retiredTokens, bind_eq_ok_iff] at h
  obtain ⟨-, -, h⟩ := h
  obtain rfl := Except.ok.inj h
  have hrows := resident_add_verifyQueryLen_le residentKv draftTokens maxModelLen
  simp only [acceptedLength]
  omega

/-! ## The log of a request -/

inductive Emission where
  /-- The token a prefill ends with. -/
  | prefilled
  | verified (tokens : Nat)
  deriving DecidableEq, Repr

namespace Emission

def tokens : Emission → Nat
  | prefilled => 1
  | verified tokens => tokens

def isPrefill : Emission → Bool
  | prefilled => true
  | verified _ => false

end Emission

/-- Tokens of a log. -/
def emittedTokens (log : List Emission) : Nat := (log.map Emission.tokens).sum

@[simp] theorem emittedTokens_nil : emittedTokens [] = 0 := rfl

@[simp] theorem emittedTokens_append (log log' : List Emission) :
    emittedTokens (log ++ log') = emittedTokens log + emittedTokens log' := by
  simp [emittedTokens]

@[simp] theorem emittedTokens_singleton (emission : Emission) :
    emittedTokens [emission] = emission.tokens := by
  simp [emittedTokens]

/-- What an operation says a request emitted. -/
def StoreOp.emission {n : Nat} (r : RequestId) : StoreOp n → Option Emission
  | .finishChunkedPrefill request _ _ => if request = r then some .prefilled else none
  | .advance (.requestSubset _ requests) tokens =>
    if r ∈ requests then some (.verified tokens) else none
  | _ => none

namespace IssuedStore

variable {acc : KvAccounting} {n : Nat}

/-- What a request emitted since the store was new. -/
def emissions (kv : IssuedStore acc n) (r : RequestId) : List Emission :=
  kv.ops.filterMap (StoreOp.emission r)

@[simp] theorem emissions_new (budget : PrefixCacheBudget) (r : RequestId) :
    (new acc n budget).emissions r = [] := rfl

theorem emissions_issue (kv : IssuedStore acc n) (op : StoreOp n) (r : RequestId) :
    (kv.issue op).emissions r = kv.emissions r ++ (op.emission r).toList := by
  show (kv.ops ++ [op]).filterMap (StoreOp.emission r) = _
  rw [List.filterMap_append, emissions]
  cases hop : op.emission r <;> simp [hop]

theorem emissions_issue_of_none (kv : IssuedStore acc n) {op : StoreOp n} {r : RequestId}
    (h : op.emission r = none) : (kv.issue op).emissions r = kv.emissions r := by
  rw [emissions_issue, h]
  exact List.append_nil _

end IssuedStore

/-! ## Keyed logs -/

/-- Each verify of a log retires what `accepted` gives the tokens emitted before it. -/
def Keyed (accepted : Nat → Nat) : Nat → List Emission → Prop
  | _, [] => True
  | before, .prefilled :: log => Keyed accepted (before + 1) log
  | before, .verified tokens :: log =>
    tokens = accepted before ∧ Keyed accepted (before + tokens) log

section keyed

variable {accepted : Nat → Nat} {before : Nat} {log log' : List Emission}

theorem keyed_append : Keyed accepted before (log ++ log') ↔
    Keyed accepted before log ∧ Keyed accepted (before + emittedTokens log) log' := by
  induction log generalizing before with
  | nil => simp [Keyed]
  | cons emission log ih =>
    have hsum : emittedTokens (emission :: log) = emission.tokens + emittedTokens log := rfl
    cases emission with
    | prefilled =>
      simp only [List.cons_append, Keyed, ih, hsum, Emission.tokens, Nat.add_assoc]
    | verified tokens =>
      simp only [List.cons_append, Keyed, ih, hsum, Emission.tokens, Nat.add_assoc, and_assoc]

theorem Keyed.eq_at {earlier later : List Emission} {tokens : Nat}
    (h : Keyed accepted 0 (earlier ++ .verified tokens :: later)) :
    tokens = accepted (emittedTokens earlier) := by
  obtain ⟨-, heq, -⟩ := keyed_append.mp h
  rw [heq, Nat.zero_add]

theorem Keyed.prefix_of_kinds (h : Keyed accepted before log) (h' : Keyed accepted before log')
    (hkinds : log.map Emission.isPrefill <+: log'.map Emission.isPrefill) : log <+: log' := by
  induction log generalizing before log' with
  | nil => exact List.nil_prefix
  | cons emission log ih =>
    cases log' with
    | nil =>
      have hlength := hkinds.length_le
      simp at hlength
    | cons emission' log' =>
      rw [List.map_cons, List.map_cons, List.cons_prefix_cons] at hkinds
      obtain ⟨hkind, hkinds⟩ := hkinds
      rw [List.cons_prefix_cons]
      cases emission with
      | prefilled =>
        cases emission' with
        | prefilled => exact ⟨rfl, ih h h' hkinds⟩
        | verified tokens => cases hkind
      | verified tokens =>
        cases emission' with
        | prefilled => cases hkind
        | verified tokens' =>
          obtain ⟨heq, hrest⟩ := h
          obtain ⟨heq', hrest'⟩ := h'
          obtain rfl := heq.trans heq'.symm
          exact ⟨rfl, ih hrest hrest' hkinds⟩

theorem kinds_of_single (hfirst : log = [] ∨ log.head? = some .prefilled)
    (hcount : log.count .prefilled ≤ 1) :
    log = [] ∨ ∃ verifies, log.map Emission.isPrefill = true :: List.replicate verifies false := by
  rcases hfirst with rfl | hfirst
  · exact .inl rfl
  · cases log with
    | nil => exact .inl rfl
    | cons emission log =>
      obtain rfl := Option.some.inj hfirst
      rw [List.count_cons_self] at hcount
      have hnone : Emission.prefilled ∉ log := List.count_eq_zero.mp (by omega)
      refine .inr ⟨log.length, congrArg (true :: ·) ?_⟩
      refine List.eq_replicate_iff.mpr ⟨List.length_map .., fun kind hkind => ?_⟩
      obtain ⟨emission, hmem, rfl⟩ := List.mem_map.mp hkind
      cases emission with
      | prefilled => exact absurd hmem hnone
      | verified tokens => rfl

theorem Keyed.prefix_or_prefix (h : Keyed accepted 0 log) (h' : Keyed accepted 0 log')
    (hkinds : log = [] ∨
      ∃ verifies, log.map Emission.isPrefill = true :: List.replicate verifies false)
    (hkinds' : log' = [] ∨
      ∃ verifies, log'.map Emission.isPrefill = true :: List.replicate verifies false) :
    log <+: log' ∨ log' <+: log := by
  rcases hkinds with rfl | ⟨verifies, hkinds⟩
  · exact .inl List.nil_prefix
  rcases hkinds' with rfl | ⟨verifies', hkinds'⟩
  · exact .inr List.nil_prefix
  have hprefix : ∀ {k k' : Nat}, k ≤ k' →
      true :: List.replicate k false <+: true :: List.replicate k' false := fun hle =>
    List.cons_prefix_cons.mpr ⟨rfl, List.prefix_replicate_iff.mpr ⟨by simpa using hle, by simp⟩⟩
  rcases Nat.le_total verifies verifies' with hle | hle
  · exact .inl (h.prefix_of_kinds h' (by rw [hkinds, hkinds']; exact hprefix hle))
  · exact .inr (h'.prefix_of_kinds h (by rw [hkinds, hkinds']; exact hprefix hle))

end keyed

end ServingSim
