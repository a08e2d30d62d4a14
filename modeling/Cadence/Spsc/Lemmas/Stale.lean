import Cadence.Spsc.Impl.StaleQueue
import Cadence.Spsc.Lemmas.Delayed
import Cadence.Spsc.Lemmas.Linearizable

/-!
This module contains the refinement of the stale queue by the ring under delayed visibility, and that
of the ring under delayed visibility by the ring whose accesses take effect at once.
-/

open Lts Function

namespace Spsc

variable {w : Nat} {L : Layout w} {α : Type}

theorem Contents.ext_iff {capacity : Nat} {q q' : Contents capacity α}
    : q = q' ↔ q.values = q'.values := by
  cases q
  cases q'
  simp

section Events

variable {s s' : Delayed L α} {a : DelayedAct α} {es : List (Event (Unit ⊕ Unit) (Op α) (Res α))}

theorem delayedCalls_step (h : (delayedCalls L α).step s a = some (s', es))
    : DelayedStep s a s' ∧ es = s.events a := by
  unfold delayedCalls at h
  simp only [Option.map_eq_some_iff, Prod.mk.injEq] at h
  rcases h with ⟨⟨t, us⟩, hstep, rfl, rfl⟩
  exact ⟨.of_step hstep, rfl⟩

def delayedStatus (s : Delayed L α) : Unit ⊕ Unit → Status (Op α) (Res α)
  | .inl () => sendStatus s.send
  | .inr () => recvStatus s.recv

theorem delayedStatus_setSend (s : Delayed L α) (pc : SendPc w α)
    : delayedStatus (s.setSend pc) = update (delayedStatus s) (.inl ()) (sendStatus pc) := by
  funext t
  cases t <;> simp [delayedStatus]

theorem delayedStatus_setRecv (s : Delayed L α) (pc : RecvPc w α)
    : delayedStatus (s.setRecv pc) = update (delayedStatus s) (.inr ()) (recvStatus pc) := by
  funext t
  cases t <;> simp [delayedStatus]

theorem delayedStatus_setSend_of_eq {s : Delayed L α} {pc : SendPc w α}
    (h : sendStatus pc = sendStatus s.send)
    : delayedStatus (s.setSend pc) = delayedStatus s := by
  rw [delayedStatus_setSend, h]
  apply update_eq_self

theorem delayedStatus_setRecv_of_eq {s : Delayed L α} {pc : RecvPc w α}
    (h : recvStatus pc = recvStatus s.recv)
    : delayedStatus (s.setRecv pc) = delayedStatus s := by
  rw [delayedStatus_setRecv, h]
  apply update_eq_self

end Events

/--
A state of the ring and the queue that it stands for. A side knows at least as much as it has acted
on.
-/
structure StandsFor (s : Delayed L α)
    (q : Stale L.capacity α × (Unit ⊕ Unit → Status (Op α) (Res α))) : Prop where
  inv : DelayedInv s
  sent : q.1.sent = s.accepted
  taken : q.1.taken = s.received.length
  knownTaken : q.1.knownTaken ≤ s.seenTail
  knownSent : q.1.knownSent ≤ s.seenHead
  status : q.2 = delayedStatus s

theorem staleQueue_send {capacity : Nat} {q : Stale capacity α} {k : Nat} (value : α)
    (h : q.knownTaken ≤ k ∧ k ≤ q.taken) (hroom : q.sent.length < k + capacity)
    : ∃ q', (staleQueue capacity α).apply q (.send value) k = some (q', .sent (.ok ()))
        ∧ q'.sent = q.sent ++ [value] ∧ q'.taken = q.taken ∧ q'.knownTaken = k
        ∧ q'.knownSent = q.knownSent := by
  have hlearned : (q.learnTaken k h).sent.length < (q.learnTaken k h).knownTaken + capacity := hroom
  refine ⟨(q.learnTaken k h).enqueue value hlearned, ?_, rfl, rfl, rfl, rfl⟩
  unfold staleQueue
  dsimp only
  rw [dif_pos h, dif_pos hlearned]

theorem staleQueue_full {capacity : Nat} {q : Stale capacity α} {value : α} {k : Nat}
    (h : q.knownTaken ≤ k ∧ k ≤ q.taken) (hfull : ¬ q.sent.length < k + capacity)
    : (staleQueue capacity α).apply q (.send value) k
        =
      some (q.learnTaken k h, .sent (.error value)) := by
  have hlearned : ¬ (q.learnTaken k h).sent.length < (q.learnTaken k h).knownTaken + capacity := hfull
  unfold staleQueue
  dsimp only
  rw [dif_pos h, dif_neg hlearned]

theorem staleQueue_recv {capacity : Nat} {q : Stale capacity α} {k : Nat}
    (h : q.knownSent ≤ k ∧ k ≤ q.sent.length) (hsome : q.taken < k)
    : ∃ q', (staleQueue capacity α).apply q .recv k
          = some (q', .received (q.sent[q.taken]?.map .init))
        ∧ q'.sent = q.sent ∧ q'.taken = q.taken + 1 ∧ q'.knownTaken = q.knownTaken
        ∧ q'.knownSent = k := by
  have hlearned : (q.learnSent k h).taken < (q.learnSent k h).knownSent := hsome
  refine ⟨(q.learnSent k h).dequeue hlearned, ?_, rfl, rfl, rfl, rfl⟩
  unfold staleQueue
  dsimp only
  rw [dif_pos h, dif_pos hlearned]

theorem staleQueue_empty {capacity : Nat} {q : Stale capacity α} {k : Nat}
    (h : q.knownSent ≤ k ∧ k ≤ q.sent.length) (hnone : ¬ q.taken < k)
    : (staleQueue capacity α).apply q .recv k = some (q.learnSent k h, .received none) := by
  have hlearned : ¬ (q.learnSent k h).taken < (q.learnSent k h).knownSent := hnone
  unfold staleQueue
  dsimp only
  rw [dif_pos h, dif_neg hlearned]

/--
A call that knows how far the other side has come finds a bounded queue.
-/
theorem staleQueue_fresh {capacity : Nat} (q : Stale capacity α) (op : Op α)
    : ∃ k q' res, (staleQueue capacity α).apply q op k = some (q', res)
        ∧ (boundedQueue capacity α).apply q.contents op = (q'.contents, res) := by
  have htaken : q.taken ≤ q.sent.length := Nat.le_trans q.taken_le q.knownSent_le
  have hlength : q.contents.values.length = q.sent.length - q.taken := by
    apply List.length_drop
  cases op with
  | send value =>
    have hk : q.knownTaken ≤ q.taken ∧ q.taken ≤ q.taken := ⟨q.knownTaken_le, Nat.le_refl _⟩
    by_cases hroom : q.sent.length < q.taken + capacity
    . rcases staleQueue_send value hk hroom with ⟨q', happly, hsent, htaken', -⟩
      refine ⟨q.taken, q', _, happly, ?_⟩
      unfold boundedQueue
      dsimp only
      rw [dif_pos (by omega), Prod.mk.injEq, Contents.ext_iff]
      refine ⟨?_, rfl⟩
      unfold Contents.enqueue Stale.contents
      dsimp only
      rw [hsent, htaken', List.drop_append_of_le_length htaken]
    . refine ⟨q.taken, _, _, staleQueue_full hk hroom, ?_⟩
      unfold boundedQueue
      dsimp only
      rw [dif_neg (by omega)]
      rfl
  | recv =>
    have hk : q.knownSent ≤ q.sent.length ∧ q.sent.length ≤ q.sent.length :=
      ⟨q.knownSent_le, Nat.le_refl _⟩
    by_cases hsome : q.taken < q.sent.length
    . rcases staleQueue_recv hk hsome with ⟨q', happly, hsent, htaken', -⟩
      refine ⟨q.sent.length, q', _, happly, ?_⟩
      unfold boundedQueue
      dsimp only
      rw [Prod.mk.injEq, Contents.ext_iff]
      unfold Contents.dequeue Stale.contents
      dsimp only
      rw [hsent, htaken', List.tail_drop, List.head?_drop]
      exact ⟨rfl, rfl⟩
    . refine ⟨q.sent.length, _, _, staleQueue_empty hk hsome, ?_⟩
      have hnil : q.sent.drop q.taken = [] := List.drop_eq_nil_of_le (Nat.le_of_not_lt hsome)
      unfold boundedQueue
      dsimp only
      rw [Prod.mk.injEq, Contents.ext_iff]
      unfold Contents.dequeue Stale.contents Stale.learnSent
      dsimp only
      rw [hnil]
      exact ⟨rfl, rfl⟩

theorem delayed_refines_staleQueue
    : Simulation (delayedCalls L α) (staleQueue L.capacity α).atomic StandsFor where
  init := {
    inv := .init
    sent := rfl
    taken := rfl
    knownTaken := Nat.le_refl 0
    knownSent := Nat.le_refl 0
    status := by
      funext t
      cases t <;> rfl
  }
  step := by
    rintro s ⟨q, st⟩ a s' es ⟨inv, hsent, htaken, hknownTaken, hknownSent, rfl⟩ hstep
    dsimp only at hsent htaken hknownTaken hknownSent
    rcases delayedCalls_step hstep with ⟨hstep', rfl⟩
    have hseenTail := inv.seenTail
    have hseenHead := inv.seenHead
    have hsentLength := congrArg List.length hsent
    cases hstep' with
    | @trySend value msg hpc hmsg =>
      refine ⟨_, _, OpenObject.run_call _ q (delayedStatus s) (.inl ()) ?_, ?_⟩
      . simp [delayedStatus, sendStatus, hpc]
      . exact {
          inv := inv.trySend hpc hmsg
          sent := hsent
          taken := htaken
          knownTaken := hknownTaken
          knownSent := hknownSent
          status := by
            rw [delayedStatus_setSend]
            rfl
        }
    | @full value head i msg hpc hmsg hseen hfull =>
      -- the queue was full when the consumer had received `i` values
      have hsend := inv.send
      have hi := hmsg
      rw [inv.tails] at hi
      rcases getElem?_counting_eq_some hi with ⟨hi, rfl⟩
      rw [hpc] at hsend
      have hbound := inv.bound
      have hfull' := hfull
      rw [hsend, L.isFull_ofNat (by omega) (by omega)] at hfull'
      have hk : q.knownTaken ≤ i ∧ i ≤ q.taken := by omega
      have hevents : s.events (.loadTail i) = [.ret (.inl ()) (.sent (.error value))] := by
        simp [Delayed.events, hpc, hmsg, hfull]
      rw [hevents]
      refine ⟨_, _, OpenObject.run_takeEffect_ret _ q (delayedStatus s) (.inl ()) ?_
        (staleQueue_full hk (by omega)), ?_⟩
      . simp [delayedStatus, sendStatus, hpc]
      . exact {
          inv := inv.full hpc hmsg hseen
          sent := hsent
          taken := htaken
          knownTaken := Nat.le_refl i
          knownSent := hknownSent
          status := by
            rw [delayedStatus_setSend]
            rfl
        }
    | @room value head i msg hpc hmsg hseen hroom =>
      have hevents : s.events (.loadTail i) = [] := by
        simp [Delayed.events, hpc, hmsg, hroom]
      rw [hevents]
      refine ⟨[], (q, delayedStatus s), rfl, ?_⟩
      exact {
        inv := inv.room hpc hmsg hseen hroom
        sent := hsent
        taken := htaken
        knownTaken := Nat.le_trans hknownTaken hseen
        knownSent := hknownSent
        status := (delayedStatus_setSend_of_eq (by simp [sendStatus, hpc])).symm
      }
    | @write value head hpc =>
      refine ⟨[], (q, delayedStatus s), rfl, ?_⟩
      exact {
        inv := inv.write hpc
        sent := hsent
        taken := htaken
        knownTaken := hknownTaken
        knownSent := hknownSent
        status := (delayedStatus_setSend_of_eq (by simp [sendStatus, hpc])).symm
      }
    | @storeHead value head hpc =>
      -- what the producer knew when it found room still holds
      have hsend := inv.send
      rw [hpc] at hsend
      have hroom := hsend.2
      have hk : q.knownTaken ≤ s.seenTail ∧ s.seenTail ≤ q.taken := by omega
      rcases staleQueue_send value hk (by omega)
        with ⟨q', happly, hsent', htaken', hknownTaken', hknownSent'⟩
      refine ⟨_, _, OpenObject.run_takeEffect_ret _ q (delayedStatus s) (.inl ()) ?_ happly, ?_⟩
      . simp [delayedStatus, sendStatus, hpc]
      . exact {
          inv := inv.storeHead hpc
          sent := by
            rw [hsent', hsent]
            rfl
          taken := htaken'.trans htaken
          knownTaken := Nat.le_of_eq hknownTaken'
          knownSent := by
            rw [hknownSent']
            exact hknownSent
          status := by
            rw [delayedStatus_setSend]
            rfl
        }
    | @tryRecv msg hpc hmsg =>
      refine ⟨_, _, OpenObject.run_call _ q (delayedStatus s) (.inr ()) ?_, ?_⟩
      . simp [delayedStatus, recvStatus, hpc]
      . exact {
          inv := inv.tryRecv hpc hmsg
          sent := hsent
          taken := htaken
          knownTaken := hknownTaken
          knownSent := hknownSent
          status := by
            rw [delayedStatus_setRecv]
            rfl
        }
    | @empty tail i msg hpc hmsg hseen hempty =>
      -- the queue was empty when the producer had sent `i` values
      have hrecv := inv.recv
      have hi := hmsg
      rw [inv.heads] at hi
      rcases getElem?_counting_eq_some hi with ⟨hi, rfl⟩
      rw [hpc] at hrecv
      have hbound := inv.bound
      have hempty' := hempty
      rw [hrecv.2, L.ofNat_eq_ofNat_iff (by omega) (by omega)] at hempty'
      have hk : q.knownSent ≤ i ∧ i ≤ q.sent.length := by omega
      have hevents : s.events (.loadHead i) = [.ret (.inr ()) (.received none)] := by
        simp [Delayed.events, hpc, hmsg, hempty]
      rw [hevents]
      refine ⟨_, _, OpenObject.run_takeEffect_ret _ q (delayedStatus s) (.inr ()) ?_
        (staleQueue_empty hk (by omega)), ?_⟩
      . simp [delayedStatus, recvStatus, hpc]
      . exact {
          inv := inv.empty hpc hmsg hseen
          sent := hsent
          taken := htaken
          knownTaken := hknownTaken
          knownSent := Nat.le_refl i
          status := by
            rw [delayedStatus_setRecv]
            rfl
        }
    | @nonempty tail i msg hpc hmsg hseen hne =>
      have hevents : s.events (.loadHead i) = [] := by
        simp [Delayed.events, hpc, hmsg, hne]
      rw [hevents]
      refine ⟨[], (q, delayedStatus s), rfl, ?_⟩
      exact {
        inv := inv.nonempty hpc hmsg hseen hne
        sent := hsent
        taken := htaken
        knownTaken := hknownTaken
        knownSent := Nat.le_trans hknownSent hseen
        status := (delayedStatus_setRecv_of_eq (by simp [recvStatus, hpc])).symm
      }
    | @read tail hpc =>
      refine ⟨[], (q, delayedStatus s), rfl, ?_⟩
      exact {
        inv := inv.read hpc
        sent := hsent
        taken := htaken
        knownTaken := hknownTaken
        knownSent := hknownSent
        status := (delayedStatus_setRecv_of_eq (by simp [recvStatus, hpc])).symm
      }
    | @storeTail tail value hpc =>
      have hrecv := inv.recv
      rw [hpc] at hrecv
      rcases hrecv with ⟨-, -, hlt, hvalue⟩
      have hk : q.knownSent ≤ s.seenHead ∧ s.seenHead ≤ q.sent.length := by omega
      rcases staleQueue_recv hk (by omega)
        with ⟨q', happly, hsent', htaken', hknownTaken', hknownSent'⟩
      rw [htaken, hsent, hvalue] at happly
      have hevents : s.events .storeTail = [.ret (.inr ()) (.received (some value))] := by
        simp [Delayed.events, hpc]
      rw [hevents]
      refine ⟨_, _, OpenObject.run_takeEffect_ret _ q (delayedStatus s) (.inr ()) ?_ happly, ?_⟩
      . simp [delayedStatus, recvStatus, hpc]
      . exact {
          inv := inv.storeTail hpc
          sent := hsent'.trans hsent
          taken := by
            rw [htaken', htaken]
            simp
          knownTaken := by
            rw [hknownTaken']
            exact hknownTaken
          knownSent := Nat.le_of_eq hknownSent'
          status := by
            rw [delayedStatus_setRecv]
            rfl
        }

/--
However late the stores of the other side become visible, the calls behave like those of one queue.
-/
theorem delayed_linearizable {acts : List (DelayedAct α)} {s : Delayed L α}
    {es : List (Event (Unit ⊕ Unit) (Op α) (Res α))}
    (hreach : (delayedCalls L α).Reaches acts s es)
    : (staleQueue L.capacity α).Linearizable es :=
  delayed_refines_staleQueue.openLinearizable hreach

/--
The third send is rejected although there is room, as the producer does not yet see the receive.
-/
theorem delayed_linearizable_late
    : ∃ s es,
        (delayedCalls twoSlots Nat).Reaches
            [.trySend 1, .loadTail 0, .write, .storeHead, .trySend 2, .loadTail 0, .write, .storeHead,
              .tryRecv, .loadHead 1, .read, .storeTail, .trySend 3, .loadTail 0] s es
          ∧
        s.accepted.length < s.received.length + 2
          ∧
        (staleQueue 2 Nat).Linearizable es := by
  have hreach := (delayedCalls twoSlots Nat).reaches_get
    [.trySend 1, .loadTail 0, .write, .storeHead, .trySend 2, .loadTail 0, .write, .storeHead,
      .tryRecv, .loadHead 1, .read, .storeTail, .trySend 3, .loadTail 0] (by decide)
  exact ⟨_, _, hreach, by decide, delayed_linearizable hreach⟩

end Spsc
