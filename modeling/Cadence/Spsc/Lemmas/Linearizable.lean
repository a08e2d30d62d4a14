import Cadence.Spsc.Impl.BoundedQueue
import Cadence.Spsc.Lemmas.Threads

/-!
This module contains the refinement of the bounded queue by the ring: with one producer thread and
one consumer thread every run is exclusive, and its history is linearizable.
-/

open Lts Function

namespace Spsc

variable {w : Nat} {L : Layout w} {α : Type}

/--
With one thread on each side, no cursor moves while its owner is inside a call, except by the last
access of that call.
-/
structure Solo (s : State L Unit Unit α) : Prop where
  send : s.send () ≠ .idle → s.headAt () = s.accepted.length
  recv : s.recv () ≠ .idle → s.tailAt () = s.received.length

theorem Solo.init : Solo (State.init L Unit Unit α) where
  send := fun h => absurd rfl h
  recv := fun h => absurd rfl h

theorem Solo.step {s s' : State L Unit Unit α} {a : Act Unit Unit α}
    {es : List (Event (Unit ⊕ Unit) (Op α) (Res α))} (solo : Solo s)
    (hstep : s.step a = some (s', es)) : Solo s' := by
  cases Step.of_step hstep with
  | trySend hpc => exact { send := fun _ => by simp, recv := solo.recv }
  | full hpc => exact { send := fun h => absurd rfl h, recv := solo.recv }
  | room hpc => exact { send := fun _ => solo.send (by simp [hpc]), recv := solo.recv }
  | write hpc => exact { send := fun _ => solo.send (by simp [hpc]), recv := solo.recv }
  | storeHead hpc => exact { send := fun h => absurd rfl h, recv := solo.recv }
  | tryRecv hpc => exact { send := solo.send, recv := fun _ => by simp }
  | empty hpc => exact { send := solo.send, recv := fun h => absurd rfl h }
  | nonempty hpc => exact { send := solo.send, recv := fun _ => solo.recv (by simp [hpc]) }
  | read hpc => exact { send := solo.send, recv := fun _ => solo.recv (by simp [hpc]) }
  | storeTail hpc => exact { send := solo.send, recv := fun h => absurd rfl h }

theorem Solo.exclusive {s s' : State L Unit Unit α} {a : Act Unit Unit α}
    {es : List (Event (Unit ⊕ Unit) (Op α) (Res α))} (solo : Solo s)
    (hstep : s.step a = some (s', es)) : Exclusive s a := by
  cases Step.of_step hstep with
  | write hpc => exact ⟨solo.send (by simp [hpc]), fun _ h => by simp [hpc, SendPc.IsStoring] at h⟩
  | read hpc => exact ⟨solo.recv (by simp [hpc]), fun _ h => by simp [hpc, RecvPc.IsStoring] at h⟩
  | _ => trivial

def sendStatus : SendPc w α → Status (Op α) (Res α)
  | .idle => .idle
  | .loadTail value _ | .write value _ | .storeHead value _ => .called (.send value)

def recvStatus : RecvPc w α → Status (Op α) (Res α)
  | .idle => .idle
  | .loadHead .. | .read .. | .storeTail .. => .called .recv

def status (s : State L Unit Unit α) : Unit ⊕ Unit → Status (Op α) (Res α)
  | .inl () => sendStatus (s.send ())
  | .inr () => recvStatus (s.recv ())

theorem status_setSend (s : State L Unit Unit α) (pc : SendPc w α)
    : status (s.setSend () pc) = update (status s) (.inl ()) (sendStatus pc) := by
  funext t
  cases t <;> simp [status]

theorem status_setRecv (s : State L Unit Unit α) (pc : RecvPc w α)
    : status (s.setRecv () pc) = update (status s) (.inr ()) (recvStatus pc) := by
  funext t
  cases t <;> simp [status]

theorem status_setSend_of_eq {s : State L Unit Unit α} {pc : SendPc w α}
    (h : sendStatus pc = sendStatus (s.send ())) : status (s.setSend () pc) = status s := by
  rw [status_setSend, h]
  apply update_eq_self _ _

theorem status_setRecv_of_eq {s : State L Unit Unit α} {pc : RecvPc w α}
    (h : recvStatus pc = recvStatus (s.recv ())) : status (s.setRecv () pc) = status s := by
  rw [status_setRecv, h]
  apply update_eq_self _ _

/--
A ring state and the queue state that it stands for.
-/
structure Represents (s : State L Unit Unit α)
    (q : Contents L.capacity α × (Unit ⊕ Unit → Status (Op α) (Res α))) : Prop where
  inv : Inv s
  solo : Solo s
  contents : q.1.values = s.accepted.drop s.received.length
  status : q.2 = status s

theorem ring_refines_queue
    : Simulation (threads L Unit Unit α) (boundedQueue L.capacity α).atomic Represents where
  init := {
    inv := .init
    solo := .init
    contents := rfl
    status := by
      funext t
      cases t <;> rfl
  }
  step := by
    rintro s ⟨q, st⟩ a s' es ⟨inv, solo, hq, rfl⟩ hstep
    have inv' := inv.step (solo.exclusive hstep) hstep
    have solo' := solo.step hstep
    change q.values = s.accepted.drop s.received.length at hq
    have hlength : q.values.length = s.accepted.length - s.received.length := by
      simp [hq]
    cases Step.of_step hstep with
    | @trySend t value hpc =>
      refine ⟨_, _, Object.run_call _ q (status s) (.inl ()) ?_, ?_⟩
      . simp [status, sendStatus, hpc]
      . exact { inv := inv', solo := solo', contents := hq, status := by rw [status_setSend]; rfl }
    | @full t value head hpc hfull =>
      -- the queue is full at the load of `tail`: the rejected send takes effect here
      have hsend := inv.send ()
      rw [hpc] at hsend
      rw [hsend.1, solo.send (by simp [hpc]), ← inv.holds.head, inv.holds.isFull_iff] at hfull
      refine ⟨[.takeEffect (.inl ()), .ret (.inl ())],
        (q, update (status s) (.inl ()) .idle), ?_, ?_⟩
      . have hcalled : status s (.inl ()) = .called (.send value) := by
          simp [status, sendStatus, hpc]
        rw [Object.run_takeEffect_ret _ q (status s) (.inl ()) hcalled]
        have hfull' : ¬ q.values.length < L.capacity := by omega
        simp [boundedQueue, hfull']
      . exact { inv := inv', solo := solo', contents := hq, status := by rw [status_setSend]; rfl }
    | @room t value head hpc hroom =>
      refine ⟨[], (q, status s), rfl, inv', solo', hq, ?_⟩
      exact (status_setSend_of_eq (by simp [sendStatus, hpc])).symm
    | @write t value head hpc =>
      refine ⟨[], (q, status s), rfl, inv', solo', hq, ?_⟩
      exact (status_setSend_of_eq (by simp [sendStatus, hpc])).symm
    | @storeHead t value head hpc =>
      -- an accepted send takes effect when `head` moves
      have hsend := inv.send ()
      rw [hpc] at hsend
      have hroom : q.values.length < L.capacity := by
        have := hsend.2.1
        have := inv.holds.le
        omega
      refine ⟨[.takeEffect (.inl ()), .ret (.inl ())],
        (q.enqueue value hroom, update (status s) (.inl ()) .idle), ?_, ?_⟩
      . have hcalled : status s (.inl ()) = .called (.send value) := by
          simp [status, sendStatus, hpc]
        rw [Object.run_takeEffect_ret _ q (status s) (.inl ()) hcalled]
        simp [boundedQueue, hroom]
      . refine { inv := inv', solo := solo', contents := ?_, status := by rw [status_setSend]; rfl }
        simp [Contents.enqueue, hq, List.drop_append_of_le_length inv.holds.le]
    | @tryRecv c hpc =>
      refine ⟨_, _, Object.run_call _ q (status s) (.inr ()) ?_, ?_⟩
      . simp [status, recvStatus, hpc]
      . exact { inv := inv', solo := solo', contents := hq, status := by rw [status_setRecv]; rfl }
    | @empty c tail hpc hempty =>
      -- the queue is empty at the load of `head`: the failed receive takes effect here
      have hrecv := inv.recv ()
      rw [hpc] at hrecv
      rw [hrecv.1, solo.recv (by simp [hpc]), ← inv.holds.tail, inv.holds.isEmpty_iff] at hempty
      have hnil : q.values = [] := by
        rw [hq, hempty, List.drop_length]
      refine ⟨[.takeEffect (.inr ()), .ret (.inr ())],
        (q.dequeue, update (status s) (.inr ()) .idle), ?_, ?_⟩
      . have hcalled : status s (.inr ()) = .called .recv := by
          simp [status, recvStatus, hpc]
        rw [Object.run_takeEffect_ret _ q (status s) (.inr ()) hcalled]
        simp [boundedQueue, hnil]
      . refine { inv := inv', solo := solo', contents := ?_, status := by rw [status_setRecv]; rfl }
        simp [Contents.dequeue, hnil, ← hq]
    | @nonempty c tail hpc hne =>
      refine ⟨[], (q, status s), rfl, inv', solo', hq, ?_⟩
      exact (status_setRecv_of_eq (by simp [recvStatus, hpc])).symm
    | @read c tail hpc =>
      refine ⟨[], (q, status s), rfl, inv', solo', hq, ?_⟩
      exact (status_setRecv_of_eq (by simp [recvStatus, hpc])).symm
    | @storeTail c tail value hpc =>
      -- a successful receive takes effect when `tail` moves
      have hrecv := inv.recv ()
      rw [hpc] at hrecv
      rcases hrecv with ⟨_, hlt, rfl⟩
      have hcons : q.values
          = s.accepted[s.received.length] :: s.accepted.drop (s.received.length + 1) := by
        rw [hq, List.drop_eq_getElem_cons hlt]
      refine ⟨[.takeEffect (.inr ()), .ret (.inr ())],
        (q.dequeue, update (status s) (.inr ()) .idle), ?_, ?_⟩
      . have hcalled : status s (.inr ()) = .called .recv := by
          simp [status, recvStatus, hpc]
        rw [Object.run_takeEffect_ret _ q (status s) (.inr ()) hcalled]
        simp [boundedQueue, hcons]
      . refine { inv := inv', solo := solo', contents := ?_, status := by rw [status_setRecv]; rfl }
        simp [Contents.dequeue, hcons]

theorem solo_linearizable {acts : List (Act Unit Unit α)} {s : State L Unit Unit α}
    {es : List (Event (Unit ⊕ Unit) (Op α) (Res α))}
    (hreach : (threads L Unit Unit α).Reaches acts s es)
    : (boundedQueue L.capacity α).Linearizable es :=
  ring_refines_queue.linearizable hreach

theorem solo_linearizable_overlapping
    : ∃ s es,
        (threads twoSlots Unit Unit Nat).Reaches
            [.tryRecv (), .trySend () 7, .loadTail (), .write (), .storeHead (), .loadHead (),
              .read (), .storeTail ()] s es
          ∧
        s.received = [.init 7]
          ∧
        (boundedQueue 2 Nat).Linearizable es := by
  have hreach := (threads twoSlots Unit Unit Nat).reaches_get
    [.tryRecv (), .trySend () 7, .loadTail (), .write (), .storeHead (), .loadHead (), .read (),
      .storeTail ()] (by decide)
  exact ⟨_, _, hreach, by decide, solo_linearizable hreach⟩

end Spsc
