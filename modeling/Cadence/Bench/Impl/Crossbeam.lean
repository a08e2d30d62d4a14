import Cadence.Bus.Impl.Bus

/-!
This module contains the benchmark runs over the bus: a publisher that offers its messages, a
subscriber that polls the only subscription and ends when it has found the queue empty and then
`done` set, and the thread that sets `done` behind the last offer.
-/

open Lts Function

namespace Bench
namespace Crossbeam

/--
Where the subscriber's loop is: in front of `try_recv` or `recv_timeout`, between its error and the
load of `done`, or behind the `break`.
-/
inductive SubPc where
  | polling
  | checking
  | ended
  deriving DecidableEq, Repr

inductive MainPc where
  | joinPublisher
  | storeDone
  | joinSubscriber
  | finished
  deriving DecidableEq, Repr

/--
`now` is the reading of the system clock, for the access of `offer` that makes one.
-/
inductive Act where
  | publisher (now : UInt64)
  | subscriber
  | main

inductive Output where
  | bus (e : Bus.Output Unit)
  | received (msg : Message)
  deriving DecidableEq

/--
`messages` are still to be offered. `count` is the local counter of received messages.
-/
structure State (capacity : Nat) where
  bus : Bus.State capacity Unit
  messages : List Message
  pc : SubPc
  count : Nat
  main : MainPc
  done : Bool

variable {capacity : Nat}

/--
The bus after `subscribe("bench")`.
-/
def subscribed (capacity : Nat) : Bus.State capacity Unit :=
  { Bus.State.init capacity Unit with
    nextId := 1
    subs := (∅ : Bus.Registry).insert 0 ⟨Bus.Filter.parse "bench", 0⟩
    created := 1 }.setSubscription 0 (.new capacity "bench")

namespace State

def init (capacity : Nat) (messages : List Message) : State capacity where
  bus := subscribed capacity
  messages := messages
  pc := .polling
  count := 0
  main := .joinPublisher
  done := false

/--
A call of `offer` or `publish` takes the next message when it starts.
-/
def publish (s : State capacity) (now : UInt64) : Option (State capacity × List Output) :=
  match s.bus.pc () with
  | .idle =>
    match s.messages with
    | [] => none
    | msg :: rest =>
      (s.bus.step (.offer () msg now)).map fun (bus, es) =>
        ({ s with bus := bus, messages := rest }, es.map .bus)
  | .lock .. =>
    (s.bus.step (.lock () s.bus.subs.values)).map fun (bus, es) =>
      ({ s with bus := bus }, es.map .bus)
  | .sending _ (_ :: _) _ _ =>
    (s.bus.step (.trySend ())).map fun (bus, es) => ({ s with bus := bus }, es.map .bus)
  | .sending _ [] _ _ =>
    (s.bus.step (.unlock ())).map fun (bus, es) => ({ s with bus := bus }, es.map .bus)

/--
`recv_timeout` may give up whenever it finds the queue empty, and `try_recv` always does.
-/
def poll (s : State capacity) : Option (State capacity × List Output) :=
  match s.pc with
  | .polling =>
    match (s.bus.subscriptions 0).chan.queue with
    | msg :: _ =>
      (s.bus.step (.recv 0)).map fun (bus, _) =>
        ({ s with bus := bus, count := s.count + 1 }, [.received msg])
    | [] => some ({ s with pc := .checking }, [])
  | .checking =>
    if s.done then some ({ s with pc := .ended }, []) else some ({ s with pc := .polling }, [])
  | .ended => none

def step (s : State capacity) : Act → Option (State capacity × List Output)
  | .publisher now => s.publish now
  | .subscriber => s.poll
  | .main =>
    match s.main with
    | .joinPublisher =>
      if s.messages.isEmpty ∧ s.bus.pc () = .idle then
        some ({ s with main := .storeDone }, [])
      else
        none
    | .storeDone => some ({ s with main := .joinSubscriber, done := true }, [])
    | .joinSubscriber => if s.pc = .ended then some ({ s with main := .finished }, []) else none
    | .finished => none

end State

def crossbeam (capacity : Nat) (messages : List Message) : System (State capacity) Act Output where
  init := .init capacity messages
  step := State.step

inductive Step (s : State capacity) : Act → State capacity → List Output → Prop where
  | offer {now msg rest} (hpc : s.bus.pc () = .idle) (hmessages : s.messages = msg :: rest)
    : Step s (.publisher now)
        { s with bus := s.bus.setPc () (.lock msg now), messages := rest } [.bus (.offer () msg now)]
  | publish {now a bus es} (ha : a = .lock () s.bus.subs.values ∨ a = .trySend () ∨ a = .unlock ())
      (hstep : s.bus.step a = some (bus, es))
    : Step s (.publisher now) { s with bus := bus } (es.map .bus)
  | recv {msg rest bus} (hpc : s.pc = .polling)
      (hqueue : (s.bus.subscriptions 0).chan.queue = msg :: rest)
      (hstep : s.bus.step (.recv 0) = some (bus, []))
    : Step s .subscriber { s with bus := bus, count := s.count + 1 } [.received msg]
  | empty (hpc : s.pc = .polling) (hqueue : (s.bus.subscriptions 0).chan.queue = [])
    : Step s .subscriber { s with pc := .checking } []
  | done (hpc : s.pc = .checking) (hdone : s.done = true)
    : Step s .subscriber { s with pc := .ended } []
  | notDone (hpc : s.pc = .checking) (hdone : s.done = false)
    : Step s .subscriber { s with pc := .polling } []
  | joinPublisher (hmain : s.main = .joinPublisher) (hmessages : s.messages = [])
      (hpc : s.bus.pc () = .idle)
    : Step s .main { s with main := .storeDone } []
  | storeDone (hmain : s.main = .storeDone)
    : Step s .main { s with main := .joinSubscriber, done := true } []
  | joinSubscriber (hmain : s.main = .joinSubscriber) (hended : s.pc = .ended)
    : Step s .main { s with main := .finished } []

theorem Step.of_step {s s' : State capacity} {a : Act} {es : List Output}
    (h : s.step a = some (s', es)) : Step s a s' es := by
  cases a with
  | publisher now =>
    simp only [State.step, State.publish] at h
    split at h
    . next hpc =>
      split at h
      . contradiction
      . next msg rest hmessages =>
        simp only [Bus.State.step, hpc, Option.map_some, Option.some.injEq, Prod.mk.injEq] at h
        rcases h with ⟨rfl, rfl⟩
        exact .offer hpc hmessages
    . rw [Option.map_eq_some_iff] at h
      rcases h with ⟨⟨bus, es'⟩, hstep, h⟩
      cases h
      exact .publish (.inl rfl) hstep
    . rw [Option.map_eq_some_iff] at h
      rcases h with ⟨⟨bus, es'⟩, hstep, h⟩
      cases h
      exact .publish (.inr (.inl rfl)) hstep
    . rw [Option.map_eq_some_iff] at h
      rcases h with ⟨⟨bus, es'⟩, hstep, h⟩
      cases h
      exact .publish (.inr (.inr rfl)) hstep
  | subscriber =>
    simp only [State.step, State.poll] at h
    split at h
    . next hpc =>
      split at h
      . next msg rest hqueue =>
        rw [Option.map_eq_some_iff] at h
        rcases h with ⟨⟨bus, es'⟩, hstep, h⟩
        cases h
        have hes : es' = [] := by
          cases Bus.Step.of_step hstep with
          | recv => rfl
        rw [hes] at hstep
        exact .recv hpc hqueue hstep
      . next hqueue =>
        simp only [Option.some.injEq, Prod.mk.injEq] at h
        rcases h with ⟨rfl, rfl⟩
        exact .empty hpc hqueue
    . next hpc =>
      split at h
      . next hdone =>
        simp only [Option.some.injEq, Prod.mk.injEq] at h
        rcases h with ⟨rfl, rfl⟩
        exact .done hpc hdone
      . next hdone =>
        simp only [Option.some.injEq, Prod.mk.injEq] at h
        rcases h with ⟨rfl, rfl⟩
        exact .notDone hpc (Bool.eq_false_iff.mpr hdone)
    . contradiction
  | main =>
    simp only [State.step] at h
    split at h
    . next hmain =>
      split at h
      . next hidle =>
        simp only [Option.some.injEq, Prod.mk.injEq] at h
        rcases h with ⟨rfl, rfl⟩
        exact .joinPublisher hmain (List.isEmpty_iff.mp hidle.1) hidle.2
      . contradiction
    . next hmain =>
      simp only [Option.some.injEq, Prod.mk.injEq] at h
      rcases h with ⟨rfl, rfl⟩
      exact .storeDone hmain
    . next hmain =>
      split at h
      . next hended =>
        simp only [Option.some.injEq, Prod.mk.injEq] at h
        rcases h with ⟨rfl, rfl⟩
        exact .joinSubscriber hmain hended
      . contradiction
    . contradiction

end Crossbeam
end Bench
