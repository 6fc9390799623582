import ServingSim.Lib.ExclusiveUse
import ServingSim.Worker.GpuCluster

/-
  Exclusive use of the links (`submit_transfer`, `submit_gather`).

  Each comm group has a send side and a receive side, and each side a time from which it is
  idle. A transfer holds its sender's send side and its receiver's receive side from a shared
  start to a shared end. A gather starts when the receiver and all its senders are idle,
  holds each sender for its own slice and the receiver until all bytes have landed. A call
  without links or without bytes to move is answered at once and holds nothing.

  What is proved:
    1. `link_exclusive` — over any run of calls the intervals of one side follow one another
       and no idle time moves back.
-/

namespace ServingSim

open ExclusiveUse

inductive LinkSide where
  | send
  | recv
  deriving DecidableEq, Repr

/-- A call that may move bytes over the links. -/
inductive LinkCall where
  | transfer (now : Time) (sendGid recvGid bytes : Nat)
  | gather (now : Time) (sources : List (Nat × Nat)) (recvGid : Nat)
  deriving DecidableEq, Repr

namespace GpuCluster

variable (cluster : GpuCluster)

/-- Since when a side of a group is idle. -/
def idleFrom : LinkSide × Nat → Time
  | (.send, gid) => (cluster.groups gid).sendFree
  | (.recv, gid) => (cluster.groups gid).recvFree

/-! ## What a call holds -/

def transferStart (now : Time) (sendGid recvGid : Nat) : Time :=
  max (max now (cluster.groups sendGid).sendFree) (cluster.groups recvGid).recvFree

def transferEnd (now : Time) (sendGid recvGid bytes : Nat) : Time :=
  cluster.transferStart now sendGid recvGid +
    max (cluster.cost.linkTime bytes (cluster.groups sendGid).count)
      (cluster.cost.linkTime bytes (cluster.groups recvGid).count)

def gatherStart (now : Time) (sources : List (Nat × Nat)) (recvGid : Nat) : Time :=
  (cluster.liveSources sources).foldl
    (fun start source => max start (cluster.groups source.1).sendFree)
    (max now (cluster.groups recvGid).recvFree)

/-- The slowest sender's slice, or the receiver's drain of all bytes. -/
def gatherTime (sources : List (Nat × Nat)) (recvGid : Nat) : Time :=
  max ((cluster.liveSources sources).foldl
      (fun slice source => max slice (cluster.sliceTime source)) 0)
    (cluster.cost.linkTime ((cluster.liveSources sources).map fun source => source.2).sum
      (cluster.groups recvGid).count - cluster.cost.latency)

def gatherEnd (now : Time) (sources : List (Nat × Nat)) (recvGid : Nat) : Time :=
  cluster.gatherStart now sources recvGid + cluster.cost.latency +
    cluster.gatherTime sources recvGid

/-- The call has links to use and bytes to move. -/
def Moves : LinkCall → Prop
  | .transfer _ sendGid recvGid _ =>
    (cluster.groups sendGid).count ≠ 0 ∧ (cluster.groups recvGid).count ≠ 0
  | .gather _ sources recvGid =>
    (cluster.groups recvGid).count ≠ 0 ∧ cluster.liveSources sources ≠ []

instance (call : LinkCall) : Decidable (cluster.Moves call) := by
  unfold Moves
  split <;> infer_instance

/-- The completion time of a call and the cluster after it. -/
def submit : LinkCall → Time × GpuCluster
  | .transfer now sendGid recvGid bytes => cluster.submitTransfer now sendGid recvGid bytes
  | .gather now sources recvGid => cluster.submitGather now sources recvGid

def afterCall (call : LinkCall) : GpuCluster := (cluster.submit call).2

def completion (call : LinkCall) : Time := (cluster.submit call).1

/-- The intervals a call that moves bytes holds its sides for. -/
def held : LinkCall → List (Booking (LinkSide × Nat))
  | .transfer now sendGid recvGid bytes =>
    [⟨(.send, sendGid), cluster.transferStart now sendGid recvGid,
        cluster.transferEnd now sendGid recvGid bytes⟩,
      ⟨(.recv, recvGid), cluster.transferStart now sendGid recvGid,
        cluster.transferEnd now sendGid recvGid bytes⟩]
  | .gather now sources recvGid =>
    (cluster.liveSources sources).map (fun source =>
        ⟨(.send, source.1), cluster.gatherStart now sources recvGid,
          cluster.gatherStart now sources recvGid + cluster.sliceTime source⟩) ++
      [⟨(.recv, recvGid), cluster.gatherStart now sources recvGid,
        cluster.gatherEnd now sources recvGid⟩]

def booking (call : LinkCall) : List (Booking (LinkSide × Nat)) :=
  if cluster.Moves call then cluster.held call else []

end GpuCluster

namespace LinkCall

/-- When the call is submitted. -/
def submittedAt : LinkCall → Time
  | .transfer now _ _ _ => now
  | .gather now _ _ => now

/-- A gather names no source group twice. -/
def DistinctSources : LinkCall → Prop
  | .transfer _ _ _ _ => True
  | .gather _ sources _ => (sources.map Prod.fst).Nodup

instance (call : LinkCall) : Decidable call.DistinctSources := by
  unfold DistinctSources
  split <;> infer_instance

end LinkCall

namespace GpuCluster

variable (cluster : GpuCluster)

/-! ## Idle times -/

@[simp] theorem idleFrom_setSendFree (gid : Nat) (free : Time) (k : LinkSide × Nat) :
    (cluster.setSendFree gid free).idleFrom k =
      if k = (.send, gid) then free else cluster.idleFrom k := by
  obtain ⟨side, other⟩ := k
  cases side <;> by_cases h : other = gid <;> simp [setSendFree, idleFrom, h]

@[simp] theorem idleFrom_setRecvFree (gid : Nat) (free : Time) (k : LinkSide × Nat) :
    (cluster.setRecvFree gid free).idleFrom k =
      if k = (.recv, gid) then free else cluster.idleFrom k := by
  obtain ⟨side, other⟩ := k
  cases side <;> by_cases h : other = gid <;> simp [setRecvFree, idleFrom, h]

theorem idleFrom_pushed (free : Nat × Nat → Time) {live : List (Nat × Nat)}
    (hlive : (live.map Prod.fst).Nodup) (k : LinkSide × Nat) :
    (live.foldl (fun pushed source => pushed.setSendFree source.1 (free source))
        cluster).idleFrom k =
      ((live.find? fun source => (LinkSide.send, source.1) = k).map free).getD
        (cluster.idleFrom k) := by
  induction live generalizing cluster with
  | nil => rfl
  | cons source rest ih =>
    obtain ⟨hsource, hrest⟩ := List.nodup_cons.mp hlive
    rw [List.foldl_cons, ih _ hrest, idleFrom_setSendFree]
    by_cases hk : (LinkSide.send, source.1) = k
    · -- the first source of a list without repetition is found nowhere else
      have hnone : (rest.find? fun other => (LinkSide.send, other.1) = k) = none := by
        rw [List.find?_eq_none]
        intro other hother
        rw [decide_eq_true_eq, ← hk, Prod.mk.injEq]
        intro heq
        exact hsource (heq.2 ▸ List.mem_map_of_mem hother)
      rw [hnone, List.find?_cons_of_pos (by simpa using hk)]
      simp [← hk]
    · rw [List.find?_cons_of_neg (by simpa using hk), if_neg fun h => hk h.symm]

theorem find_sender {live : List (Nat × Nat)} (hlive : (live.map Prod.fst).Nodup)
    {source : Nat × Nat} (h : source ∈ live) :
    (live.find? fun other => (LinkSide.send, other.1) = (LinkSide.send, source.1)) =
      some source := by
  induction live with
  | nil => cases h
  | cons first rest ih =>
    obtain ⟨hfirst, hrest⟩ := List.nodup_cons.mp hlive
    rcases List.mem_cons.mp h with rfl | h
    · simp
    · have hne : first.1 ≠ source.1 := fun heq =>
        hfirst (heq ▸ List.mem_map_of_mem h)
      rw [List.find?_cons_of_neg (by simpa using hne)]
      exact ih hrest h

/-! ## Calls that move bytes -/

variable {cluster} {now : Time} {sendGid recvGid bytes : Nat} {sources : List (Nat × Nat)}

theorem submitTransfer_moves (h : cluster.Moves (.transfer now sendGid recvGid bytes)) :
    cluster.submitTransfer now sendGid recvGid bytes =
      (cluster.transferEnd now sendGid recvGid bytes,
        (cluster.setSendFree sendGid (cluster.transferEnd now sendGid recvGid bytes)).setRecvFree
          recvGid (cluster.transferEnd now sendGid recvGid bytes)) := by
  have hlinks : ¬ ((cluster.groups sendGid).count = 0 ∨ (cluster.groups recvGid).count = 0) := by
    rw [not_or]
    exact h
  unfold submitTransfer
  dsimp only
  rw [if_neg hlinks]
  rfl

theorem submitGather_moves (h : cluster.Moves (.gather now sources recvGid)) :
    cluster.submitGather now sources recvGid = (cluster.gatherEnd now sources recvGid,
        ((cluster.liveSources sources).foldl (fun pushed source => pushed.setSendFree source.1
            (cluster.gatherStart now sources recvGid + cluster.sliceTime source))
          cluster).setRecvFree recvGid (cluster.gatherEnd now sources recvGid)) := by
  have hlive : ¬ (cluster.liveSources sources).isEmpty = true := by
    rw [List.isEmpty_iff]
    exact h.2
  unfold submitGather
  dsimp only
  rw [if_neg h.1, if_neg hlive]
  rfl

theorem submit_idle {call : LinkCall} (h : ¬ cluster.Moves call) :
    cluster.submit call = (call.submittedAt, cluster) := by
  cases call with
  | transfer now sendGid recvGid bytes =>
    have hlinks : (cluster.groups sendGid).count = 0 ∨ (cluster.groups recvGid).count = 0 := by
      unfold Moves at h
      dsimp only at h
      omega
    simp only [submit, submitTransfer, if_pos hlinks, LinkCall.submittedAt]
  | gather now sources recvGid =>
    unfold submit submitGather
    dsimp only
    split
    · rfl
    · next hcount =>
      have hlive : (cluster.liveSources sources).isEmpty = true := by
        rw [List.isEmpty_iff]
        by_contra hne
        exact h ⟨hcount, hne⟩
      rw [if_pos hlive]
      rfl

theorem le_transferStart (cluster : GpuCluster) (now : Time) (sendGid recvGid : Nat) :
    now ≤ cluster.transferStart now sendGid recvGid ∧
      (cluster.groups sendGid).sendFree ≤ cluster.transferStart now sendGid recvGid ∧
      (cluster.groups recvGid).recvFree ≤ cluster.transferStart now sendGid recvGid := by
  refine ⟨?_, ?_, le_max_right _ _⟩
  · exact (le_max_left _ _).trans (le_max_left _ _)
  · exact (le_max_right _ _).trans (le_max_left _ _)

theorem foldl_max_ge {α : Type} (f : α → Nat) {xs : List α} {x : α} (h : x ∈ xs) (start : Nat) :
    f x ≤ xs.foldl (fun best x => max best (f x)) start := by
  induction xs generalizing start with
  | nil => cases h
  | cons y ys ih =>
    rw [List.foldl_cons]
    rcases List.mem_cons.mp h with rfl | h
    · exact (le_max_right _ _).trans (le_foldl_max f ys _)
    · exact ih h _

theorem le_gatherStart (cluster : GpuCluster) (now : Time) (sources : List (Nat × Nat))
    (recvGid : Nat) :
    now ≤ cluster.gatherStart now sources recvGid ∧
      (cluster.groups recvGid).recvFree ≤ cluster.gatherStart now sources recvGid ∧
      ∀ source ∈ cluster.liveSources sources,
        (cluster.groups source.1).sendFree ≤ cluster.gatherStart now sources recvGid := by
  have hstart := le_foldl_max (fun source : Nat × Nat => (cluster.groups source.1).sendFree)
    (cluster.liveSources sources) (max now (cluster.groups recvGid).recvFree)
  refine ⟨(le_max_left _ _).trans hstart, (le_max_right _ _).trans hstart, ?_⟩
  intro source hsource
  exact foldl_max_ge (fun source : Nat × Nat => (cluster.groups source.1).sendFree) hsource _

/-! ## Booking -/

theorem books_transfer (h : cluster.Moves (.transfer now sendGid recvGid bytes)) :
    Books cluster.idleFrom (cluster.submitTransfer now sendGid recvGid bytes).2.idleFrom
      (cluster.held (.transfer now sendGid recvGid bytes)) := by
  obtain ⟨-, hsend, hrecv⟩ := le_transferStart cluster now sendGid recvGid
  rw [submitTransfer_moves h]
  refine ⟨?_, ?_, ?_, ?_, ?_⟩
  · simp [held]
  · intro b hb
    rcases List.mem_pair.mp hb with rfl | rfl
    · exact hsend
    · exact hrecv
  · intro b hb
    rcases List.mem_pair.mp hb with rfl | rfl
    · exact Nat.le_add_right _ _
    · exact Nat.le_add_right _ _
  · intro b hb
    rcases List.mem_pair.mp hb with rfl | rfl
    · simp
    · simp
  · intro k hk
    simp only [held, List.map_cons, List.map_nil, List.mem_pair, not_or] at hk
    simp [hk.1, hk.2]

theorem books_gather (h : cluster.Moves (.gather now sources recvGid))
    (hdistinct : (sources.map Prod.fst).Nodup) :
    Books cluster.idleFrom (cluster.submitGather now sources recvGid).2.idleFrom
      (cluster.held (.gather now sources recvGid)) := by
  obtain ⟨-, hrecv, hsend⟩ := le_gatherStart cluster now sources recvGid
  have hlive : ((cluster.liveSources sources).map Prod.fst).Nodup :=
    hdistinct.sublist ((List.filter_sublist).map _)
  rw [submitGather_moves h]
  refine ⟨?_, ?_, ?_, ?_, ?_⟩
  · -- the senders are distinct, and none of them is a receive side
    rw [held, List.map_append, List.map_map, List.nodup_append]
    refine ⟨?_, List.nodup_singleton _, ?_⟩
    · have hsides : (fun source : Nat × Nat => (LinkSide.send, source.1)) =
          Prod.mk LinkSide.send ∘ Prod.fst := rfl
      show ((cluster.liveSources sources).map fun source => (LinkSide.send, source.1)).Nodup
      rw [hsides, ← List.map_map]
      exact hlive.map (Prod.mk_right_injective _)
    · intro a ha b hb hab
      obtain ⟨source, -, rfl⟩ := List.mem_map.mp ha
      obtain rfl := List.mem_singleton.mp hb
      cases hab
  · intro b hb
    rcases List.mem_append.mp hb with hb | hb
    · obtain ⟨source, hsource, rfl⟩ := List.mem_map.mp hb
      exact hsend source hsource
    · obtain rfl := List.mem_singleton.mp hb
      exact hrecv
  · intro b hb
    rcases List.mem_append.mp hb with hb | hb
    · obtain ⟨source, -, rfl⟩ := List.mem_map.mp hb
      exact Nat.le_add_right _ _
    · obtain rfl := List.mem_singleton.mp hb
      exact (Nat.le_add_right _ _).trans (Nat.le_add_right _ _)
  · intro b hb
    rcases List.mem_append.mp hb with hb | hb
    · obtain ⟨source, hsource, rfl⟩ := List.mem_map.mp hb
      rw [idleFrom_setRecvFree, if_neg (by simp), idleFrom_pushed _ _ hlive,
        find_sender hlive hsource]
      rfl
    · obtain rfl := List.mem_singleton.mp hb
      simp
  · intro k hk
    rw [held, List.map_append, List.mem_append, not_or] at hk
    obtain ⟨hsenders, hreceiver⟩ := hk
    have hnone : (cluster.liveSources sources).find? (fun other =>
        (LinkSide.send, other.1) = k) = none := by
      rw [List.find?_eq_none]
      intro source hsource heq
      apply hsenders
      rw [List.map_map]
      exact List.mem_map.mpr ⟨source, hsource, by simpa using heq⟩
    have hother : k ≠ (LinkSide.recv, recvGid) := by simpa using hreceiver
    rw [idleFrom_setRecvFree, if_neg hother, idleFrom_pushed _ _ hlive, hnone]
    rfl

theorem books_call (cluster : GpuCluster) (call : LinkCall) (h : call.DistinctSources) :
    Books cluster.idleFrom (cluster.afterCall call).idleFrom (cluster.booking call) := by
  unfold booking afterCall
  split
  · next hmoves =>
    cases call with
    | transfer now sendGid recvGid bytes => exact books_transfer hmoves
    | gather now sources recvGid => exact books_gather hmoves h
  · next hidle =>
    rw [submit_idle hidle]
    exact Books.nothing _

/-! ## Completion -/

/-- What a call that moves bytes takes at least: a transfer the slower side's link time, a gather
the latency. -/
def leastTime (cluster : GpuCluster) : LinkCall → Time
  | .transfer _ sendGid recvGid bytes =>
    max (cluster.cost.linkTime bytes (cluster.groups sendGid).count)
      (cluster.cost.linkTime bytes (cluster.groups recvGid).count)
  | .gather _ _ _ => cluster.cost.latency

theorem le_completion (cluster : GpuCluster) (call : LinkCall) (h : cluster.Moves call) :
    call.submittedAt + cluster.leastTime call ≤ cluster.completion call := by
  cases call with
  | transfer now sendGid recvGid bytes =>
    have hstart := (le_transferStart cluster now sendGid recvGid).1
    show _ ≤ (cluster.submitTransfer now sendGid recvGid bytes).1
    rw [submitTransfer_moves h]
    exact Nat.add_le_add_right hstart _
  | gather now sources recvGid =>
    have hstart := (le_gatherStart cluster now sources recvGid).1
    show _ ≤ (cluster.submitGather now sources recvGid).1
    rw [submitGather_moves h]
    exact (Nat.add_le_add_right hstart _).trans (Nat.le_add_right _ _)

/-! ## Runs -/

/-- The cluster after a run of calls. -/
def afterCalls (cluster : GpuCluster) (calls : List LinkCall) : GpuCluster :=
  Run.run afterCall cluster calls

/-- The intervals a run reserves, in the order of the calls. -/
def reserved (cluster : GpuCluster) (calls : List LinkCall) : List (Booking (LinkSide × Nat)) :=
  bookings afterCall booking cluster calls

theorem allowed_distinct {cluster : GpuCluster} {calls : List LinkCall}
    (h : ∀ call ∈ calls, call.DistinctSources) :
    Run.Allowed afterCall (fun _ call => call.DistinctSources) cluster calls := by
  induction calls generalizing cluster with
  | nil => trivial
  | cons call calls ih =>
    exact ⟨h call List.mem_cons_self, ih fun other ho => h other (List.mem_cons_of_mem call ho)⟩

/-- The intervals reserved on one side of one group do not overlap, and no idle time moves back. -/
structure LinksExclusive (cluster : GpuCluster) (calls : List LinkCall) : Prop where
  disjoint : (cluster.reserved calls).Pairwise fun a b =>
    a.resource = b.resource → a.stop ≤ b.start
  ordered : ∀ b ∈ cluster.reserved calls, b.start ≤ b.stop
  monotone : ∀ before after, calls = before ++ after → ∀ side,
    (cluster.afterCalls before).idleFrom side ≤ (cluster.afterCalls calls).idleFrom side

theorem linksExclusive (cluster : GpuCluster) {calls : List LinkCall}
    (h : ∀ call ∈ calls, call.DistinctSources) : cluster.LinksExclusive calls where
  disjoint := bookings_exclusive (fun s call hcall => s.books_call call hcall) (allowed_distinct h)
  ordered := start_le_stop (fun s call hcall => s.books_call call hcall) (allowed_distinct h)
  monotone := by
    intro before after hsplit side
    subst hsplit
    have hafter : ∀ call ∈ after, call.DistinctSources := fun call hcall =>
      h call (List.mem_append_right before hcall)
    rw [afterCalls, afterCalls, Run.run_append]
    exact free_le_run (fun s call hcall => s.books_call call hcall) (allowed_distinct hafter) side

/-- Calls are submitted in time order. -/
def InTimeOrder (calls : List LinkCall) : Prop :=
  calls.Pairwise fun a b => a.submittedAt ≤ b.submittedAt

/-- Over any run of calls, in whatever order they are submitted, the links are used exclusively; a
call that moves bytes completes no sooner than its least time after it was submitted, and any other
is answered at once and holds nothing. -/
theorem link_exclusive (cluster : GpuCluster) (calls : List LinkCall)
    (hdistinct : ∀ call ∈ calls, call.DistinctSources) :
    cluster.LinksExclusive calls ∧
    ∀ before call after, calls = before ++ call :: after → ((cluster.afterCalls before).Moves call →
        call.submittedAt + (cluster.afterCalls before).leastTime call ≤
          (cluster.afterCalls before).completion call) ∧
      (¬ (cluster.afterCalls before).Moves call →
        (cluster.afterCalls before).completion call = call.submittedAt ∧
          (cluster.afterCalls before).booking call = []) := by
  refine ⟨cluster.linksExclusive hdistinct, ?_⟩
  intro before call after _
  refine ⟨(cluster.afterCalls before).le_completion call, ?_⟩
  intro hidle
  constructor
  · rw [completion, submit_idle hidle]
  · exact if_neg hidle

/-- A curve's intercept, read off its first two points. -/
def interceptOf (linkTime : (bytes count : Nat) → Time) : Time :=
  2 * linkTime 1024 1 - linkTime 2048 1

/-- Groups of one link each on a given curve. -/
def onCurve (linkTime : (bytes count : Nat) → Time) : GpuCluster where
  groups := fun _ => ⟨1, 0, 0⟩
  cost := ⟨linkTime, interceptOf linkTime⟩

/-- Five units of latency, and one more for a byte. -/
def risingCurve : GpuCluster := onCurve fun bytes count => 5 + bytes / count

/-- A curve whose second point was measured below its first. -/
def dippingCurve : GpuCluster := onCurve fun bytes count => 8 + (2048 - bytes / count) / 512

/-- Two senders at once, then one of them again. -/
theorem link_exclusive_rising : risingCurve.LinksExclusive
      [.gather 0 [(0, 20), (1, 30)] 2, .transfer 1 0 2 10] :=
  (link_exclusive risingCurve _ (by decide)).1

/-- Not every call takes the latency: a gather of no bytes is answered at once, and a transfer
takes the curve's time for its message, which may be below the curve's intercept. -/
theorem latency_not_always :
    (¬ ∀ (cluster : GpuCluster) (calls : List LinkCall), InTimeOrder calls →
      (∀ call ∈ calls, call.DistinctSources) → cluster.LinksExclusive calls ∧
        ∀ before call after, calls = before ++ call :: after →
          call.submittedAt + (cluster.afterCalls before).cost.latency ≤
            (cluster.afterCalls before).completion call) ∧
    ¬ ∀ (cluster : GpuCluster) (call : LinkCall), cluster.Moves call →
        call.submittedAt + cluster.cost.latency ≤ cluster.completion call := by
  constructor
  · intro h
    have hgather := (h risingCurve [.gather 0 [(0, 0)] 1] (List.pairwise_singleton _ _)
      (by decide)).2 [] (.gather 0 [(0, 0)] 1) [] rfl
    revert hgather
    decide
  · intro h
    have htransfer := h dippingCurve (.transfer 0 0 1 2048) (by decide)
    revert htransfer
    decide

end GpuCluster

end ServingSim
