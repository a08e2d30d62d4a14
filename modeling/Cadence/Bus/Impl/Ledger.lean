import Cadence.Bus.Impl.Bus

/-!
This module contains the ledger of a bus: what an onlooker writes down who sees the calls and, before
every step, the queues and the subscription that the offer in progress visits next. The bus neither
writes the ledger nor reads it.
-/

open Lts Function

namespace Bus

/--
`patterns` are the arguments of the calls of `subscribe`, and `registered` are the ids in use with
the numbers of the calls that issued them. `called t` is what `t` has offered and not taken the lock
for. The offers are in the order in which they took the lock, and `current` has not returned it.
-/
structure Ledger (τ : Type) where
  patterns : List String
  registered : List (SubId × Nat)
  called : τ → Option (Message × UInt64)
  finished : List (Offer τ)
  current : Option (Offer τ)
  received : Nat → List Message
  discarded : Nat → List Message

variable {capacity : Nat} {τ : Type}

/--
The `try_send` in the step `trySend t`: its queue, and what it finds there.
-/
def State.attempt (s : State capacity τ) (t : τ) : Option (Nat × Option Nat) :=
  match s.pc t with
  | .sending msg (sub :: _) _ _ =>
    if sub.filter.matchesTopic msg.topicStr then
      some (sub.tx, (s.subscriptions sub.tx).chan.found)
    else
      none
  | _ => none

namespace Ledger

def empty (τ : Type) : Ledger τ where
  patterns := []
  registered := []
  called := fun _ => none
  finished := []
  current := none
  received := fun _ => []
  discarded := fun _ => []

def log (ledger : Ledger τ) : List (Offer τ) :=
  ledger.finished ++ ledger.current.toList

def pattern (ledger : Ledger τ) (i : Nat) : String :=
  ledger.patterns.getD i ""

variable [DecidableEq τ]

/--
The `n`-th call of `subscribe` issues the id `n`, as far as a word can hold it, and an entry with the
same id is replaced.
-/
def watch (ledger : Ledger τ) (s : State capacity τ) : Act τ → Ledger τ
  | .subscribe pattern =>
    let i := ledger.patterns.length
    let id := UInt64.ofNat i
    { ledger with
      patterns := ledger.patterns ++ [pattern]
      registered := (id, i) :: ledger.registered.filter (·.1 ≠ id) }
  | .unsubscribe id => { ledger with registered := ledger.registered.filter (·.1 ≠ id) }
  | .offer t arg now => { ledger with called := update ledger.called t (some (arg, now)) }
  | .lock t _ =>
    { ledger with
      called := update ledger.called t none
      finished := ledger.log
      current := (ledger.called t).map fun (arg, now) =>
        ⟨t, arg, now, ledger.registered.map Prod.snd, []⟩ }
  | .trySend t =>
    match s.attempt t with
    | some (i, found) => { ledger with current := ledger.current.map fun o => o.note i found }
    | none => ledger
  | .unlock _ => { ledger with finished := ledger.log, current := none }
  | .recv i =>
    let msg := (s.subscriptions i).chan.queue.head?
    { ledger with received := update ledger.received i (ledger.received i ++ msg.toList) }
  | .dropReceiver i =>
    let queue := (s.subscriptions i).chan.queue
    { ledger with discarded := update ledger.discarded i (ledger.discarded i ++ queue) }

end Ledger

def ledger (capacity : Nat) [DecidableEq τ] (acts : List (Act τ)) : Ledger τ :=
  (bus capacity τ).observe Ledger.watch (.empty τ) (.init capacity τ) acts

end Bus
