import Cadence.Lts.Choice
import Cadence.Spsc.Impl.BoundedQueue
import Cadence.Spsc.Impl.Delayed

/-!
This module contains what the ring is for under delayed visibility: a FIFO queue of at most
`capacity` values each side of which learns late, but in order, how far the other side has come.
-/

open Lts

namespace Spsc

/--
`taken` of the values `sent` so far have been received. The producer knows of `knownTaken` receives
and the consumer of `knownSent` sends.
-/
structure Stale (capacity : Nat) (α : Type) where
  sent : List α
  taken : Nat
  knownTaken : Nat
  knownSent : Nat
  knownTaken_le : knownTaken ≤ taken
  taken_le : taken ≤ knownSent
  knownSent_le : knownSent ≤ sent.length
  bounded : sent.length ≤ knownTaken + capacity

namespace Stale

variable {capacity : Nat} {α : Type}

def empty : Stale capacity α where
  sent := []
  taken := 0
  knownTaken := 0
  knownSent := 0
  knownTaken_le := Nat.le_refl 0
  taken_le := Nat.le_refl 0
  knownSent_le := Nat.le_refl 0
  bounded := Nat.zero_le _

def contents (q : Stale capacity α) : Contents capacity α where
  values := q.sent.drop q.taken
  bounded := by
    have := q.bounded
    have := q.knownTaken_le
    rw [List.length_drop]
    omega

def learnTaken (q : Stale capacity α) (k : Nat) (h : q.knownTaken ≤ k ∧ k ≤ q.taken)
    : Stale capacity α :=
  { q with
    knownTaken := k
    knownTaken_le := h.2
    bounded := by
      have := q.bounded
      omega }

def learnSent (q : Stale capacity α) (k : Nat) (h : q.knownSent ≤ k ∧ k ≤ q.sent.length)
    : Stale capacity α :=
  { q with
    knownSent := k
    taken_le := by
      have := q.taken_le
      omega
    knownSent_le := h.2 }

def enqueue (q : Stale capacity α) (value : α) (h : q.sent.length < q.knownTaken + capacity)
    : Stale capacity α :=
  { q with
    sent := q.sent ++ [value]
    knownSent_le := by
      have := q.knownSent_le
      rw [List.length_append]
      omega
    bounded := by
      rw [List.length_append, List.length_singleton]
      omega }

def dequeue (q : Stale capacity α) (h : q.taken < q.knownSent) : Stale capacity α :=
  { q with
    taken := q.taken + 1
    knownTaken_le := Nat.le_succ_of_le q.knownTaken_le
    taken_le := h }

end Stale

/--
The choice is how far the call knows the other side to have come: not less than it knew before, and
not more than is true.
-/
def staleQueue (capacity : Nat) (α : Type)
    : OpenObject (Stale capacity α) (Op α) Nat (Res α) where
  init := .empty
  apply := fun q op k =>
    match op with
    | .send value =>
      if h : q.knownTaken ≤ k ∧ k ≤ q.taken then
        if hroom : (q.learnTaken k h).sent.length < (q.learnTaken k h).knownTaken + capacity then
          some ((q.learnTaken k h).enqueue value hroom, .sent (.ok ()))
        else
          some (q.learnTaken k h, .sent (.error value))
      else
        none
    | .recv =>
      if h : q.knownSent ≤ k ∧ k ≤ q.sent.length then
        if hsome : (q.learnSent k h).taken < (q.learnSent k h).knownSent then
          some ((q.learnSent k h).dequeue hsome, .received (q.sent[q.taken]?.map .init))
        else
          some (q.learnSent k h, .received none)
      else
        none

variable {w : Nat} {L : Layout w} {α : Type}

/--
The calls and returns in an access of the ring under delayed visibility.
-/
def Delayed.events (s : Delayed L α) : DelayedAct α → List (Event (Unit ⊕ Unit) (Op α) (Res α))
  | .trySend value => [.call (.inl ()) (.send value)]
  | .loadTail i =>
    match s.send, s.tails[i]? with
    | .loadTail value head, some msg =>
      if L.isFull head msg.value then [.ret (.inl ()) (.sent (.error value))] else []
    | _, _ => []
  | .write => []
  | .storeHead => [.ret (.inl ()) (.sent (.ok ()))]
  | .tryRecv => [.call (.inr ()) .recv]
  | .loadHead i =>
    match s.recv, s.heads[i]? with
    | .loadHead tail, some msg =>
      if tail = msg.value then [.ret (.inr ()) (.received none)] else []
    | _, _ => []
  | .read => []
  | .storeTail =>
    match s.recv with
    | .storeTail _ value => [.ret (.inr ()) (.received (some value))]
    | _ => []

def delayedCalls (L : Layout w) (α : Type)
    : System (Delayed L α) (DelayedAct α) (Event (Unit ⊕ Unit) (Op α) (Res α)) where
  init := .init L α
  step := fun s a => (s.step a).map fun (s', _) => (s', s.events a)

end Spsc
