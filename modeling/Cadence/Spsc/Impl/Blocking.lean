import Cadence.Spsc.Impl.Threads

/-!
This module contains the blocking calls `send` and `recv`: a producer thread that sends a list of
values one after the other, a consumer thread that calls `recv` a number of times, and the system
that interleaves their accesses to one ring.
-/

open Lts Function

namespace Spsc

/--
What a blocking call does between two attempts. Neither strategy touches the ring.
-/
inductive WaitStrategy where
  | busySpin
  | yield
  deriving DecidableEq, Repr

inductive Side where
  | producer
  | consumer
  deriving DecidableEq, Repr

/--
What the two threads show: a call has returned, or an attempt has failed and the thread waits.
-/
inductive Output (α : Type) where
  | sent (value : α)
  | received (value : MaybeUninit α)
  | waits (side : Side) (strategy : WaitStrategy)
  deriving DecidableEq, Repr

/--
A thread that calls `send` for each of `values` in turn. The first of them is the local `value` of
the call in progress. It `waits` from the load that made an attempt fail to the end of the wait.
-/
structure Sender (α : Type) where
  strategy : WaitStrategy
  values : List α
  waits : Bool
  deriving DecidableEq

structure Receiver where
  strategy : WaitStrategy
  missing : Nat
  waits : Bool
  deriving DecidableEq

variable {w : Nat} {L : Layout w} {α : Type}

def SendPc.next (value : α) : SendPc w α → Act Unit Unit α
  | .idle => .trySend () value
  | .loadTail .. => .loadTail ()
  | .write .. => .write ()
  | .storeHead .. => .storeHead ()

def RecvPc.next : RecvPc w α → Act Unit Unit α
  | .idle => .tryRecv ()
  | .loadHead .. => .loadHead ()
  | .read .. => .read ()
  | .storeTail .. => .storeTail ()

def Sender.step (ring : State L Unit Unit α) (sender : Sender α)
    : Option (State L Unit Unit α × Sender α × List (Output α)) :=
  if sender.waits then
    some (ring, { sender with waits := false }, [])
  else
    match sender.values with
    | [] => none
    | value :: rest =>
      match ring.step ((ring.send ()).next value) with
      | some (ring, [.ret _ (.sent (.ok ()))]) =>
        some (ring, { sender with values := rest }, [.sent value])
      | some (ring, [.ret _ (.sent (.error value))]) =>
        let sender := { sender with values := value :: rest, waits := true }
        some (ring, sender, [.waits .producer sender.strategy])
      | some (ring, _) => some (ring, sender, [])
      | none => none

def Receiver.step (ring : State L Unit Unit α) (receiver : Receiver)
    : Option (State L Unit Unit α × Receiver × List (Output α)) :=
  if receiver.waits then
    some (ring, { receiver with waits := false }, [])
  else
    match receiver.missing with
    | 0 => none
    | missing + 1 =>
      match ring.step (ring.recv ()).next with
      | some (ring, [.ret _ (.received (some value))]) =>
        some (ring, { receiver with missing := missing }, [.received value])
      | some (ring, [.ret _ (.received none)]) =>
        let receiver := { receiver with waits := true }
        some (ring, receiver, [.waits .consumer receiver.strategy])
      | some (ring, _) => some (ring, receiver, [])
      | none => none

structure Blocking.State {w : Nat} (L : Layout w) (α : Type) where
  ring : Spsc.State L Unit Unit α
  sender : Sender α
  receiver : Receiver

namespace Blocking.State

/--
`strategy` is what the caller of each side passes to every call.
-/
def init (L : Layout w) (strategy : Side → WaitStrategy) (values : List α) : State L α where
  ring := .init L Unit Unit α
  sender := ⟨strategy .producer, values, false⟩
  receiver := ⟨strategy .consumer, values.length, false⟩

def step (s : State L α) : Side → Option (State L α × List (Output α))
  | .producer =>
    match s.sender.step s.ring with
    | some (ring, sender, es) => some ({ s with ring := ring, sender := sender }, es)
    | none => none
  | .consumer =>
    match s.receiver.step s.ring with
    | some (ring, receiver, es) => some ({ s with ring := ring, receiver := receiver }, es)
    | none => none

end Blocking.State

def blocking (L : Layout w) (strategy : Side → WaitStrategy) (values : List α)
    : System (Blocking.State L α) Side (Output α) where
  init := .init L strategy values
  step := Blocking.State.step

inductive Sender.Step (ring : State L Unit Unit α) (sender : Sender α)
    : State L Unit Unit α → Sender α → List (Output α) → Prop where
  | wait (hwaits : sender.waits = true) : Step ring sender ring { sender with waits := false } []
  | trySend {value rest} (hwaits : sender.waits = false) (hvalues : sender.values = value :: rest)
      (hpc : ring.send () = .idle)
    : Step ring sender
        ({ ring with headAt := update ring.headAt () ring.accepted.length }.setSend ()
          (.loadTail value ring.inner.head))
        sender []
  | full {value rest value' head} (hwaits : sender.waits = false)
      (hvalues : sender.values = value :: rest) (hpc : ring.send () = .loadTail value' head)
      (hfull : L.isFull head ring.inner.tail)
    : Step ring sender (ring.setSend () .idle)
        { sender with values := value' :: rest, waits := true } [.waits .producer sender.strategy]
  | room {value rest value' head} (hwaits : sender.waits = false)
      (hvalues : sender.values = value :: rest) (hpc : ring.send () = .loadTail value' head)
      (hroom : ¬ L.isFull head ring.inner.tail)
    : Step ring sender (ring.setSend () (.write value' head)) sender []
  | write {value rest value' head} (hwaits : sender.waits = false)
      (hvalues : sender.values = value :: rest) (hpc : ring.send () = .write value' head)
    : Step ring sender
        ({ ring with inner := ring.inner.write head value' }.setSend () (.storeHead value' head))
        sender []
  | storeHead {value rest value' head} (hwaits : sender.waits = false)
      (hvalues : sender.values = value :: rest) (hpc : ring.send () = .storeHead value' head)
    : Step ring sender
        ({ ring with
            inner := ring.inner.storeHead (head + 1#w)
            accepted := ring.accepted ++ [value'] }.setSend () .idle)
        { sender with values := rest } [.sent value]

inductive Receiver.Step (ring : State L Unit Unit α) (receiver : Receiver)
    : State L Unit Unit α → Receiver → List (Output α) → Prop where
  | wait (hwaits : receiver.waits = true)
    : Step ring receiver ring { receiver with waits := false } []
  | tryRecv {missing} (hwaits : receiver.waits = false) (hmissing : receiver.missing = missing + 1)
      (hpc : ring.recv () = .idle)
    : Step ring receiver
        ({ ring with tailAt := update ring.tailAt () ring.received.length }.setRecv ()
          (.loadHead ring.inner.tail))
        receiver []
  | empty {missing tail} (hwaits : receiver.waits = false) (hmissing : receiver.missing = missing + 1)
      (hpc : ring.recv () = .loadHead tail) (hempty : tail = ring.inner.head)
    : Step ring receiver (ring.setRecv () .idle)
        { receiver with waits := true } [.waits .consumer receiver.strategy]
  | nonempty {missing tail} (hwaits : receiver.waits = false)
      (hmissing : receiver.missing = missing + 1) (hpc : ring.recv () = .loadHead tail)
      (hne : tail ≠ ring.inner.head)
    : Step ring receiver (ring.setRecv () (.read tail)) receiver []
  | read {missing tail} (hwaits : receiver.waits = false) (hmissing : receiver.missing = missing + 1)
      (hpc : ring.recv () = .read tail)
    : Step ring receiver (ring.setRecv () (.storeTail tail (ring.inner.read tail))) receiver []
  | storeTail {missing tail value} (hwaits : receiver.waits = false)
      (hmissing : receiver.missing = missing + 1) (hpc : ring.recv () = .storeTail tail value)
    : Step ring receiver
        ({ ring with
            inner := ring.inner.storeTail (tail + 1#w)
            received := ring.received ++ [value] }.setRecv () .idle)
        { receiver with missing := missing } [.received value]

theorem Sender.step_eq_some_iff {ring ring' : State L Unit Unit α} {sender sender' : Sender α}
    {es : List (Output α)}
    : sender.step ring = some (ring', sender', es) ↔ Sender.Step ring sender ring' sender' es := by
  constructor
  . intro h
    unfold Sender.step at h
    split at h
    . next hwaits =>
      simp only [Option.some.injEq, Prod.mk.injEq] at h
      rcases h with ⟨rfl, rfl, rfl⟩
      exact .wait hwaits
    . next hwaits =>
      rw [Bool.not_eq_true] at hwaits
      split at h
      . contradiction
      . next value rest hvalues =>
        cases hpc : ring.send () with
        | idle =>
          simp [State.step, SendPc.next, hpc] at h
          rcases h with ⟨rfl, rfl, rfl⟩
          exact .trySend hwaits hvalues hpc
        | loadTail value' head =>
          by_cases hfull : L.isFull head ring.inner.tail
          . simp [State.step, SendPc.next, hpc, hfull] at h
            rcases h with ⟨rfl, rfl, rfl⟩
            exact .full hwaits hvalues hpc hfull
          . simp [State.step, SendPc.next, hpc, hfull] at h
            rcases h with ⟨rfl, rfl, rfl⟩
            exact .room hwaits hvalues hpc hfull
        | write value' head =>
          simp [State.step, SendPc.next, hpc] at h
          rcases h with ⟨rfl, rfl, rfl⟩
          exact .write hwaits hvalues hpc
        | storeHead value' head =>
          simp [State.step, SendPc.next, hpc] at h
          rcases h with ⟨rfl, rfl, rfl⟩
          exact .storeHead hwaits hvalues hpc
  . intro h
    cases h with
    | wait hwaits => simp [Sender.step, hwaits]
    | trySend hwaits hvalues hpc =>
      simp [Sender.step, State.step, SendPc.next, hwaits, hvalues, hpc]
    | full hwaits hvalues hpc hfull =>
      simp [Sender.step, State.step, SendPc.next, hwaits, hvalues, hpc, hfull]
    | room hwaits hvalues hpc hroom =>
      simp [Sender.step, State.step, SendPc.next, hwaits, hvalues, hpc, hroom]
    | write hwaits hvalues hpc =>
      simp [Sender.step, State.step, SendPc.next, hwaits, hvalues, hpc]
    | storeHead hwaits hvalues hpc =>
      simp [Sender.step, State.step, SendPc.next, hwaits, hvalues, hpc]

theorem Receiver.step_eq_some_iff {ring ring' : State L Unit Unit α} {receiver receiver' : Receiver}
    {es : List (Output α)}
    : receiver.step ring = some (ring', receiver', es)
        ↔
      Receiver.Step ring receiver ring' receiver' es := by
  constructor
  . intro h
    unfold Receiver.step at h
    split at h
    . next hwaits =>
      simp only [Option.some.injEq, Prod.mk.injEq] at h
      rcases h with ⟨rfl, rfl, rfl⟩
      exact .wait hwaits
    . next hwaits =>
      rw [Bool.not_eq_true] at hwaits
      split at h
      . contradiction
      . next missing hmissing =>
        cases hpc : ring.recv () with
        | idle =>
          simp [State.step, RecvPc.next, hpc] at h
          rcases h with ⟨rfl, rfl, rfl⟩
          exact .tryRecv hwaits hmissing hpc
        | loadHead tail =>
          by_cases hempty : tail = ring.inner.head
          . simp [State.step, RecvPc.next, hpc, hempty] at h
            rcases h with ⟨rfl, rfl, rfl⟩
            exact .empty hwaits hmissing hpc hempty
          . simp [State.step, RecvPc.next, hpc, hempty] at h
            rcases h with ⟨rfl, rfl, rfl⟩
            exact .nonempty hwaits hmissing hpc hempty
        | read tail =>
          simp [State.step, RecvPc.next, hpc] at h
          rcases h with ⟨rfl, rfl, rfl⟩
          exact .read hwaits hmissing hpc
        | storeTail tail value =>
          simp [State.step, RecvPc.next, hpc] at h
          rcases h with ⟨rfl, rfl, rfl⟩
          exact .storeTail hwaits hmissing hpc
  . intro h
    cases h with
    | wait hwaits => simp [Receiver.step, hwaits]
    | tryRecv hwaits hmissing hpc =>
      simp [Receiver.step, State.step, RecvPc.next, hwaits, hmissing, hpc]
    | empty hwaits hmissing hpc hempty =>
      simp [Receiver.step, State.step, RecvPc.next, hwaits, hmissing, hpc, hempty]
    | nonempty hwaits hmissing hpc hne =>
      simp [Receiver.step, State.step, RecvPc.next, hwaits, hmissing, hpc, hne]
    | read hwaits hmissing hpc =>
      simp [Receiver.step, State.step, RecvPc.next, hwaits, hmissing, hpc]
    | storeTail hwaits hmissing hpc =>
      simp [Receiver.step, State.step, RecvPc.next, hwaits, hmissing, hpc]

end Spsc
