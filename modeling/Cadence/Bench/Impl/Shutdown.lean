import Cadence.Message.Basic
import Cadence.Spsc.Impl.Blocking

/-!
This module contains the SPSC benchmark runs: a producer that sends its messages with blocking sends,
the main thread that joins it and then sets `done`, and a consumer that polls the ring and ends when
it has found the ring empty and then `done` set.
-/

open Lts Function Spsc

namespace Bench

/--
Where the consumer's loop is: in `try_recv`, between its `None` and the load of `done`, in the wait
before the next `try_recv`, or behind the `break`.
-/
inductive PollPc where
  | polling
  | checking
  | waiting
  | ended
  deriving DecidableEq, Repr

/--
`count` is the local counter of received messages. `checked` is not in memory: how many messages had
been accepted when `try_recv` last found the ring empty.
-/
structure Poller where
  strategy : WaitStrategy
  pc : PollPc
  count : Nat
  checked : Nat
  deriving DecidableEq

inductive MainPc where
  | joinProducer
  | storeDone
  | joinConsumer
  | finished
  deriving DecidableEq, Repr

inductive Thread where
  | producer
  | consumer
  | main
  deriving DecidableEq, Repr

variable {w : Nat} {L : Layout w} {α : Type}

def Poller.step (ring : Spsc.State L Unit Unit α) (done : Bool) (poller : Poller)
    : Option (Spsc.State L Unit Unit α × Poller × List (Output α)) :=
  match poller.pc with
  | .polling =>
    match ring.step (ring.recv ()).next with
    | some (ring, [.ret _ (.received (some value))]) =>
      some (ring, { poller with count := poller.count + 1 }, [.received value])
    | some (ring, [.ret _ (.received none)]) =>
      some (ring, { poller with pc := .checking, checked := ring.accepted.length }, [])
    | some (ring, _) => some (ring, poller, [])
    | none => none
  | .checking =>
    if done then
      some (ring, { poller with pc := .ended }, [])
    else
      some (ring, { poller with pc := .waiting }, [.waits .consumer poller.strategy])
  | .waiting => some (ring, { poller with pc := .polling }, [])
  | .ended => none

structure State {w : Nat} (L : Layout w) (α : Type) where
  ring : Spsc.State L Unit Unit α
  sender : Sender α
  poller : Poller
  main : MainPc
  done : Bool

namespace State

/--
The producer always waits with `BusySpin`.
-/
def init (L : Layout w) (strategy : WaitStrategy) (values : List α) : State L α where
  ring := .init L Unit Unit α
  sender := ⟨.busySpin, values, false⟩
  poller := ⟨strategy, .polling, 0, 0⟩
  main := .joinProducer
  done := false

def step (s : State L α) : Thread → Option (State L α × List (Output α))
  | .producer =>
    match s.sender.step s.ring with
    | some (ring, sender, es) => some ({ s with ring := ring, sender := sender }, es)
    | none => none
  | .consumer =>
    match s.poller.step s.ring s.done with
    | some (ring, poller, es) => some ({ s with ring := ring, poller := poller }, es)
    | none => none
  | .main =>
    match s.main with
    | .joinProducer =>
      if s.sender.values.isEmpty then some ({ s with main := .storeDone }, []) else none
    | .storeDone => some ({ s with main := .joinConsumer, done := true }, [])
    | .joinConsumer =>
      if s.poller.pc = .ended then some ({ s with main := .finished }, []) else none
    | .finished => none

end State

def shutdown (L : Layout w) (strategy : WaitStrategy) (values : List α)
    : System (State L α) Thread (Output α) where
  init := .init L strategy values
  step := State.step

/--
`CAPACITY`.
-/
def layout : Layout 64 where
  capacity := 2 ^ 17
  isPowerOfTwo := ⟨17, by decide, rfl⟩

/--
The message whose payload starts with the time at which it is meant to be sent.
-/
def latMessage (intended : UInt64) : Message :=
  let m := Message.new "bench" []
  { m with payload := ⟨(Bytes.toLe 8 intended.toNat ++ m.payload.toList.drop 8).toArray, by simp⟩ }

def latMessages (start interval : UInt64) (msgs : Nat) : List Message :=
  (List.range msgs).map fun i => latMessage (start + i.toUInt64 * interval)

namespace Main

def latMsgs : Nat := 100000

def latWarmup : Nat := 5000

def latInterval : UInt64 := 1000000000 / 10000

def thrMsgs : Nat := 1000000

/--
`start` is the producer's first clock reading.
-/
def spscLatency (start : UInt64) : System (State layout Message) Thread (Output Message) :=
  shutdown layout .yield (latMessages start latInterval (latMsgs + latWarmup))

def spscThroughput : System (State layout Message) Thread (Output Message) :=
  shutdown layout .busySpin (List.replicate thrMsgs (Message.new "bench" []))

end Main

namespace Tail

def latMsgs : Nat := 100000

def latWarmup : Nat := 10000

def spscTrial (rateHz : UInt64) (wait : WaitStrategy) (start : UInt64)
    : System (State layout Message) Thread (Output Message) :=
  shutdown layout wait (latMessages start (1000000000 / rateHz) (latMsgs + latWarmup))

end Tail

inductive Poller.Step (ring : Spsc.State L Unit Unit α) (done : Bool) (poller : Poller)
    : Spsc.State L Unit Unit α → Poller → List (Output α) → Prop where
  | tryRecv (hpoll : poller.pc = .polling) (hpc : ring.recv () = .idle)
    : Step ring done poller
        ({ ring with tailAt := update ring.tailAt () ring.received.length }.setRecv ()
          (.loadHead ring.inner.tail))
        poller []
  | empty {tail} (hpoll : poller.pc = .polling) (hpc : ring.recv () = .loadHead tail)
      (hempty : tail = ring.inner.head)
    : Step ring done poller (ring.setRecv () .idle)
        { poller with pc := .checking, checked := ring.accepted.length } []
  | nonempty {tail} (hpoll : poller.pc = .polling) (hpc : ring.recv () = .loadHead tail)
      (hne : tail ≠ ring.inner.head)
    : Step ring done poller (ring.setRecv () (.read tail)) poller []
  | read {tail} (hpoll : poller.pc = .polling) (hpc : ring.recv () = .read tail)
    : Step ring done poller (ring.setRecv () (.storeTail tail (ring.inner.read tail))) poller []
  | storeTail {tail value} (hpoll : poller.pc = .polling)
      (hpc : ring.recv () = .storeTail tail value)
    : Step ring done poller
        ({ ring with
            inner := ring.inner.storeTail (tail + 1#w)
            received := ring.received ++ [value] }.setRecv () .idle)
        { poller with count := poller.count + 1 } [.received value]
  | done (hpoll : poller.pc = .checking) (hdone : done = true)
    : Step ring done poller ring { poller with pc := .ended } []
  | notDone (hpoll : poller.pc = .checking) (hdone : done = false)
    : Step ring done poller ring { poller with pc := .waiting } [.waits .consumer poller.strategy]
  | wait (hpoll : poller.pc = .waiting)
    : Step ring done poller ring { poller with pc := .polling } []

theorem Poller.Step.of_step {ring ring' : Spsc.State L Unit Unit α} {done : Bool}
    {poller poller' : Poller} {es : List (Output α)}
    (h : poller.step ring done = some (ring', poller', es))
    : Poller.Step ring done poller ring' poller' es := by
  cases hpoll : poller.pc with
  | polling =>
    cases hpc : ring.recv () with
    | idle =>
      simp [Poller.step, Spsc.State.step, RecvPc.next, hpoll, hpc] at h
      rcases h with ⟨rfl, rfl, rfl⟩
      exact .tryRecv hpoll hpc
    | loadHead tail =>
      by_cases hempty : tail = ring.inner.head
      . simp [Poller.step, Spsc.State.step, RecvPc.next, hpoll, hpc, hempty] at h
        rcases h with ⟨rfl, rfl, rfl⟩
        exact .empty hpoll hpc hempty
      . simp [Poller.step, Spsc.State.step, RecvPc.next, hpoll, hpc, hempty] at h
        rcases h with ⟨rfl, rfl, rfl⟩
        exact .nonempty hpoll hpc hempty
    | read tail =>
      simp [Poller.step, Spsc.State.step, RecvPc.next, hpoll, hpc] at h
      rcases h with ⟨rfl, rfl, rfl⟩
      exact .read hpoll hpc
    | storeTail tail value =>
      simp [Poller.step, Spsc.State.step, RecvPc.next, hpoll, hpc] at h
      rcases h with ⟨rfl, rfl, rfl⟩
      rw [← hpoll]
      exact .storeTail hpoll hpc
  | checking =>
    cases done with
    | true =>
      simp [Poller.step, hpoll] at h
      rcases h with ⟨rfl, rfl, rfl⟩
      exact .done hpoll rfl
    | false =>
      simp [Poller.step, hpoll] at h
      rcases h with ⟨rfl, rfl, rfl⟩
      exact .notDone hpoll rfl
  | waiting =>
    simp [Poller.step, hpoll] at h
    rcases h with ⟨rfl, rfl, rfl⟩
    exact .wait hpoll
  | ended => simp [Poller.step, hpoll] at h

inductive Step (s : State L α) : Thread → State L α → List (Output α) → Prop where
  | producer {ring sender es} (h : Sender.Step s.ring s.sender ring sender es)
    : Step s .producer { s with ring := ring, sender := sender } es
  | consumer {ring poller es} (h : Poller.Step s.ring s.done s.poller ring poller es)
    : Step s .consumer { s with ring := ring, poller := poller } es
  | joinProducer (hmain : s.main = .joinProducer) (hvalues : s.sender.values = [])
    : Step s .main { s with main := .storeDone } []
  | storeDone (hmain : s.main = .storeDone)
    : Step s .main { s with main := .joinConsumer, done := true } []
  | joinConsumer (hmain : s.main = .joinConsumer) (hended : s.poller.pc = .ended)
    : Step s .main { s with main := .finished } []

theorem Step.of_step {s s' : State L α} {t : Thread} {es : List (Output α)}
    (h : s.step t = some (s', es)) : Step s t s' es := by
  cases t with
  | producer =>
    simp only [State.step] at h
    split at h
    . next hstep =>
      simp only [Option.some.injEq, Prod.mk.injEq] at h
      rcases h with ⟨rfl, rfl⟩
      exact .producer (Sender.step_eq_some_iff.mp hstep)
    . contradiction
  | consumer =>
    simp only [State.step] at h
    split at h
    . next hstep =>
      simp only [Option.some.injEq, Prod.mk.injEq] at h
      rcases h with ⟨rfl, rfl⟩
      exact .consumer (.of_step hstep)
    . contradiction
  | main =>
    simp only [State.step] at h
    split at h <;> (try split at h) <;>
      simp only [Option.some.injEq, Prod.mk.injEq, reduceCtorEq] at h <;> rcases h with ⟨rfl, rfl⟩
    . exact .joinProducer ‹_› (List.isEmpty_iff.mp ‹_›)
    . exact .storeDone ‹_›
    . exact .joinConsumer ‹_› ‹_›

end Bench
