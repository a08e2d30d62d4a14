import Cadence.Bus.Impl.Bus
import Cadence.Spsc.Impl.BoundedQueue

/-!
This module contains the bus with one subscription as a queue: clones that offer messages, receivers
that poll, and the calls and returns that concern the subscription.
-/

open Lts Spsc

namespace Bus

/--
`tryRecv c` is a whole call on the receiver or on a clone of it.
-/
inductive QueueAct (τ κ : Type) where
  | offer (t : τ) (arg : Message) (now : UInt64)
  | lock (t : τ)
  | trySend (t : τ)
  | unlock (t : τ)
  | tryRecv (c : κ)

/--
What an offer to one subscription tells its caller.
-/
def OfferResult.toResult (result : OfferResult) (msg : Message) : Except Message Unit :=
  if result.dropped = 0 then .ok () else .error msg

def wanted (pattern : String) (msg : Message) : Bool :=
  (Filter.parse pattern).matchesTopic msg.topicStr

namespace State

variable {capacity : Nat} {τ κ : Type} [DecidableEq τ]

/--
The bus after its first `subscribe`.
-/
def subscribedTo (capacity : Nat) (pattern : String) (τ : Type) : State capacity τ :=
  { State.init capacity τ with
    nextId := 1
    subs := (∅ : Registry).insert 0 ⟨Filter.parse pattern, 0⟩
    created := 1 }.setSubscription 0 (.new capacity pattern)

def queueStep (pattern : String) (s : State capacity τ)
    : QueueAct τ κ → Option (State capacity τ × List (Event (τ ⊕ κ) (Op Message) (Res Message)))
  | .offer t arg now =>
    (s.step (.offer t arg now)).map fun (s', _) =>
      (s', if wanted pattern arg then [.call (.inl t) (.send (stamp arg now))] else [])
  | .lock t => (s.step (.lock t s.subs.values)).map fun (s', _) => (s', [])
  | .trySend t => (s.step (.trySend t)).map fun (s', _) => (s', [])
  | .unlock t =>
    match s.pc t with
    | .sending msg _ sent dropped =>
      (s.step (.unlock t)).map fun (s', _) =>
        (s', if wanted pattern msg then
            [.ret (.inl t) (.sent (OfferResult.toResult ⟨sent, dropped⟩ msg))]
          else
            [])
    | _ => none
  | .tryRecv c =>
    match (s.subscriptions 0).chan.queue with
    | msg :: _ =>
      (s.step (.recv 0)).map fun (s', _) =>
        (s', [.call (.inr c) .recv, .ret (.inr c) (.received (some (.init msg)))])
    | [] => some (s, [.call (.inr c) .recv, .ret (.inr c) (.received none)])

end State

def oneSub (capacity : Nat) (pattern : String) (τ κ : Type) [DecidableEq τ]
    : System (State capacity τ) (QueueAct τ κ) (Event (τ ⊕ κ) (Op Message) (Res Message)) where
  init := .subscribedTo capacity pattern τ
  step := State.queueStep pattern

end Bus
