import Mathlib.Data.Multiset.Count
import Mathlib.Data.Multiset.Bind
import Mathlib.Data.Finset.Basic
import Mathlib.Algebra.BigOperators.Group.Multiset.Basic
import Mathlib.Data.Finset.Lattice.Lemmas

/-
  Transfers between parties, one after another.

  A copying transfer gives its receiver what its sender holds; a reducing transfer moves
  what its sender has gathered to its receiver, who adds it to its own.
-/

namespace ServingSim

namespace HopSchedule

structure Hop (ρ : Type) where
  sender : ρ
  receiver : ρ

variable {ρ α : Type} [DecidableEq ρ]

/-- Copy along the hops in turn; a sender that does not hold it is an error. -/
def copyAlong (holders : Finset ρ) (hops : List (Hop ρ)) : Option (Finset ρ) :=
  hops.foldlM (fun holders hop =>
    if hop.sender ∈ holders then some (insert hop.receiver holders) else none) holders

/-- A receiver adds what its sender has gathered, who is left with nothing. -/
def move (gathered : ρ → Multiset α) (hop : Hop ρ) : ρ → Multiset α := fun rank =>
  if rank = hop.receiver then gathered rank + gathered hop.sender
  else if rank = hop.sender then 0
  else gathered rank

def moveAlong (gathered : ρ → Multiset α) (hops : List (Hop ρ)) : ρ → Multiset α :=
  hops.foldl move gathered

theorem copyAlong_eq {holders : Finset ρ} {hops : List (Hop ρ)}
    (h : ∀ hop ∈ hops, hop.sender ∈ holders) :
    copyAlong holders hops = some (holders ∪ (hops.map Hop.receiver).toFinset) := by
  induction hops generalizing holders with
  | nil => simp [copyAlong]
  | cons hop hops ih =>
    obtain ⟨hhead, hrest⟩ := List.forall_mem_cons.mp h
    have hheld : ∀ hop' ∈ hops, hop'.sender ∈ insert hop.receiver holders := fun hop' hop'' =>
      Finset.mem_insert_of_mem (hrest hop' hop'')
    have hstep := ih hheld
    rw [copyAlong, List.foldlM_cons, if_pos hhead]
    show copyAlong (insert hop.receiver holders) hops = _
    rw [hstep, List.map_cons, List.toFinset_cons, Finset.insert_union, Finset.union_insert]

/-- The gathered parts of the senders to a rank. -/
def sentTo (gathered : ρ → Multiset α) (hops : List (Hop ρ)) (rank : ρ) : Multiset α :=
  ((hops.filter fun hop => hop.receiver = rank).map fun hop => gathered hop.sender).sum

theorem moveAlong_eq {gathered : ρ → Multiset α} {hops : List (Hop ρ)}
    (honce : (hops.map Hop.sender).Nodup)
    (hlevel : ∀ hop ∈ hops, ∀ hop' ∈ hops, hop.sender ≠ hop'.receiver) (rank : ρ) :
    moveAlong gathered hops rank =
      if rank ∈ hops.map Hop.sender then 0 else gathered rank + sentTo gathered hops rank := by
  induction hops generalizing gathered with
  | nil => simp [moveAlong, sentTo]
  | cons hop hops ih =>
    rw [List.map_cons, List.nodup_cons] at honce
    have hrest : ∀ hop' ∈ hops, ∀ hop'' ∈ hops, hop'.sender ≠ hop''.receiver :=
      fun hop' h' hop'' h'' =>
        hlevel hop' (List.mem_cons_of_mem _ h') hop'' (List.mem_cons_of_mem _ h'')
    -- the other senders still have what they had
    have hkept : ∀ hop' ∈ hops, move gathered hop hop'.sender = gathered hop'.sender := by
      intro hop' h'
      have hreceiver := hlevel hop' (List.mem_cons_of_mem _ h') hop List.mem_cons_self
      have hsender : hop'.sender ≠ hop.sender := fun heq =>
        honce.1 (heq ▸ List.mem_map_of_mem h')
      rw [move, if_neg hreceiver, if_neg hsender]
    have hsent : sentTo (move gathered hop) hops rank = sentTo gathered hops rank :=
      congrArg List.sum (List.map_congr_left fun hop' h' =>
        hkept hop' (List.mem_of_mem_filter h'))
    show moveAlong (move gathered hop) hops rank = _
    rw [ih honce.2 hrest, hsent, List.map_cons]
    by_cases hlater : rank ∈ hops.map Hop.sender
    · rw [if_pos hlater, if_pos (List.mem_cons_of_mem _ hlater)]
    · rw [if_neg hlater]
      have hself := hlevel hop List.mem_cons_self hop List.mem_cons_self
      by_cases hfirst : rank = hop.sender
      · subst hfirst
        have hnone : hops.filter (fun hop' => hop'.receiver = hop.sender) = [] :=
          List.filter_eq_nil_iff.mpr fun hop' h' heq =>
            hlevel hop List.mem_cons_self hop' (List.mem_cons_of_mem _ h')
              (of_decide_eq_true heq).symm
        rw [if_pos List.mem_cons_self, move, if_neg hself, if_pos rfl, sentTo, hnone]
        rfl
      · rw [if_neg (List.not_mem_cons_of_ne_of_not_mem hfirst hlater), move, sentTo, sentTo,
          List.filter_cons]
        by_cases hreceiver : rank = hop.receiver
        · rw [if_pos hreceiver, if_pos (decide_eq_true hreceiver.symm), List.map_cons,
            List.sum_cons, add_assoc]
        · rw [if_neg hreceiver, if_neg hfirst,
            if_neg (by rw [decide_eq_true_eq]; exact fun h => hreceiver h.symm)]

end HopSchedule

end ServingSim
