import Cadence.Bus.Impl.Bus

/-!
This module contains the bus with receivers that may also poll an empty queue, and the script of one
subscription: what its subscriber does and which offers it sees go by.
-/

open Lts Function

namespace Bus

inductive Move (τ : Type) where
  | act (a : Act τ)
  | tryRecv (i : Nat)

variable {capacity : Nat} {τ : Type} [DecidableEq τ]

def State.move (s : State capacity τ) : Move τ → Option (State capacity τ × List (Output τ))
  | .act a => s.step a
  | .tryRecv i =>
    match s.step (.recv i) with
    | some next => some next
    | none => some (s, [])

def polledBus (capacity : Nat) (τ : Type) [DecidableEq τ]
    : System (State capacity τ) (Move τ) (Output τ) where
  init := .init capacity τ
  step := State.move

inductive Item where
  | subscribe (pattern : String)
  | offer (msg : Message)
  | unsubscribe
  | recv
  | dropReceiver
  deriving DecidableEq

/--
What a step of the bus means for subscription `i`. An offer stands where it visits `i`, or at its
lock if it is not going to.
-/
def State.itemsOf (i : Nat) (s : State capacity τ) : Act τ → List Item
  | .subscribe pattern => if s.created = i then [.subscribe pattern] else []
  | .unsubscribe id => if (s.subs.lookup id).any (·.tx = i) then [.unsubscribe] else []
  | .offer .. => []
  | .lock t values =>
    match s.pc t with
    | .lock arg now => if i ∈ values.map Sub.tx then [] else [.offer (stamp arg now)]
    | _ => []
  | .trySend t =>
    match s.pc t with
    | .sending msg (sub :: _) _ _ => if sub.tx = i then [.offer msg] else []
    | _ => []
  | .unlock _ => []
  | .recv j => if j = i then [.recv] else []
  | .dropReceiver j => if j = i then [.dropReceiver] else []

def State.items (i : Nat) (s : State capacity τ) : Move τ → List Item
  | .act a => s.itemsOf i a
  | .tryRecv j => if j = i then [.recv] else []

/--
The script of subscription `i` along `moves`.
-/
def script (capacity : Nat) (i : Nat) (moves : List (Move τ)) : List Item :=
  (polledBus capacity τ).trace (State.items i) (.init capacity τ) moves

/--
A subscription as its own script determines it. It is `registered` until it is unsubscribed.
-/
structure Client (capacity : Nat) where
  registered : Bool
  subscription : Subscription capacity

namespace Client

variable (client : Client capacity)

def accepts (msg : Message) : Bool :=
  client.registered && (Filter.parse client.subscription.pattern).matchesTopic msg.topicStr

def offer (msg : Message) : Client capacity :=
  if client.accepts msg then
    { client with subscription := { client.subscription with
        chan := (client.subscription.chan.trySend msg).1 } }
  else
    client

def recv : Client capacity :=
  match client.subscription.chan.queue with
  | msg :: _ =>
    if client.subscription.chan.connected then
      { client with subscription := { client.subscription with
          chan := client.subscription.chan.pop
          received := client.subscription.received ++ [msg] } }
    else
      client
  | [] => client

def dropReceiver : Client capacity :=
  { client with subscription := { client.subscription with
      chan := client.subscription.chan.disconnect
      discarded := client.subscription.chan.queue } }

end Client

def Client.step (client : Option (Client capacity)) : Item → Option (Client capacity)
  | .subscribe pattern => some ⟨true, .new capacity pattern⟩
  | .offer msg => client.map (·.offer msg)
  | .unsubscribe => client.map fun c => { c with registered := false }
  | .recv => client.map Client.recv
  | .dropReceiver => client.map Client.dropReceiver

def Client.replay (items : List Item) : Option (Client capacity) :=
  items.foldl Client.step none

end Bus
