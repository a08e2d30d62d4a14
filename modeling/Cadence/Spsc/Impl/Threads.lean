import Mathlib.Logic.Function.Basic
import Mathlib.Tactic.Simps.Basic
import Cadence.Lts.Linearizable
import Cadence.Spsc.Impl.Ring

/-!
This module contains the system in which any number of threads share the `Producer` and the
`Consumer` of one ring by reference. The accesses of their calls interleave freely and take effect
at once. One thread on each side is the intended use.
-/

open Lts Function

namespace Spsc

inductive Op (α : Type) where
  | send (value : α)
  | recv
  deriving DecidableEq, Repr

/--
What a call returns: `Result<(), T>` of `try_send` or `Option<T>` of `try_recv`.
-/
inductive Res (α : Type) where
  | sent (res : Except α Unit)
  | received (res : Option (MaybeUninit α))

/--
`τ` are the threads that share the producer, `κ` those that share the consumer. The last four
fields are not in memory: `headAt t` is the number of head stores before the last head load of `t`,
`tailAt` is the same for the tail, `accepted` are the values of the sends that returned `Ok` and
`received` the values returned by `try_recv`.
-/
structure State {w : Nat} (L : Layout w) (τ κ α : Type) where
  inner : Inner L α
  send : τ → SendPc w α
  recv : κ → RecvPc w α
  headAt : τ → Nat
  tailAt : κ → Nat
  accepted : List α
  received : List (MaybeUninit α)

/--
One access of one thread. `trySend` and `tryRecv` start a call with the load of the side's own
cursor.
-/
inductive Act (τ κ α : Type) where
  | trySend (t : τ) (value : α)
  | loadTail (t : τ)
  | write (t : τ)
  | storeHead (t : τ)
  | tryRecv (c : κ)
  | loadHead (c : κ)
  | read (c : κ)
  | storeTail (c : κ)
  deriving DecidableEq, Repr

variable {w : Nat} {L : Layout w} {τ κ α : Type} [DecidableEq τ] [DecidableEq κ]

namespace State

def init (L : Layout w) (τ κ α : Type) : State L τ κ α where
  inner := Inner.new L α
  send := fun _ => .idle
  recv := fun _ => .idle
  headAt := fun _ => 0
  tailAt := fun _ => 0
  accepted := []
  received := []

@[simps]
def setSend (s : State L τ κ α) (t : τ) (pc : SendPc w α) : State L τ κ α :=
  { s with send := update s.send t pc }

@[simps]
def setRecv (s : State L τ κ α) (c : κ) (pc : RecvPc w α) : State L τ κ α :=
  { s with recv := update s.recv c pc }

def step (s : State L τ κ α)
    : Act τ κ α → Option (State L τ κ α × List (Event (τ ⊕ κ) (Op α) (Res α)))
  | .trySend t value =>
    match s.send t with
    | .idle =>
      let s := { s with headAt := update s.headAt t s.accepted.length }
      some (s.setSend t (.loadTail value s.inner.head), [.call (.inl t) (.send value)])
    | _ => none
  | .loadTail t =>
    match s.send t with
    | .loadTail value head =>
      if L.isFull head s.inner.tail then
        some (s.setSend t .idle, [.ret (.inl t) (.sent (.error value))])
      else
        some (s.setSend t (.write value head), [])
    | _ => none
  | .write t =>
    match s.send t with
    | .write value head =>
      let s := { s with inner := s.inner.write head value }
      some (s.setSend t (.storeHead value head), [])
    | _ => none
  | .storeHead t =>
    match s.send t with
    | .storeHead value head =>
      let s := { s with
        inner := s.inner.storeHead (head + 1#w)
        accepted := s.accepted ++ [value] }
      some (s.setSend t .idle, [.ret (.inl t) (.sent (.ok ()))])
    | _ => none
  | .tryRecv c =>
    match s.recv c with
    | .idle =>
      let s := { s with tailAt := update s.tailAt c s.received.length }
      some (s.setRecv c (.loadHead s.inner.tail), [.call (.inr c) .recv])
    | _ => none
  | .loadHead c =>
    match s.recv c with
    | .loadHead tail =>
      if tail = s.inner.head then
        some (s.setRecv c .idle, [.ret (.inr c) (.received none)])
      else
        some (s.setRecv c (.read tail), [])
    | _ => none
  | .read c =>
    match s.recv c with
    | .read tail => some (s.setRecv c (.storeTail tail (s.inner.read tail)), [])
    | _ => none
  | .storeTail c =>
    match s.recv c with
    | .storeTail tail value =>
      let s := { s with
        inner := s.inner.storeTail (tail + 1#w)
        received := s.received ++ [value] }
      some (s.setRecv c .idle, [.ret (.inr c) (.received (some value))])
    | _ => none

/--
The values between the two cursors, as `Inner::drop` would visit them.
-/
def unread (s : State L τ κ α) : List (MaybeUninit α) :=
  s.inner.drop

end State

def threads (L : Layout w) (τ κ α : Type) [DecidableEq τ] [DecidableEq κ]
    : System (State L τ κ α) (Act τ κ α) (Event (τ ⊕ κ) (Op α) (Res α)) where
  init := .init L τ κ α
  step := State.step

inductive Step (s : State L τ κ α)
    : Act τ κ α → State L τ κ α → List (Event (τ ⊕ κ) (Op α) (Res α)) → Prop where
  | trySend {t value} (hpc : s.send t = .idle)
    : Step s (.trySend t value)
        ({ s with headAt := update s.headAt t s.accepted.length }.setSend t
          (.loadTail value s.inner.head))
        [.call (.inl t) (.send value)]
  | full {t value head} (hpc : s.send t = .loadTail value head)
      (hfull : L.isFull head s.inner.tail)
    : Step s (.loadTail t) (s.setSend t .idle) [.ret (.inl t) (.sent (.error value))]
  | room {t value head} (hpc : s.send t = .loadTail value head)
      (hroom : ¬ L.isFull head s.inner.tail)
    : Step s (.loadTail t) (s.setSend t (.write value head)) []
  | write {t value head} (hpc : s.send t = .write value head)
    : Step s (.write t)
        ({ s with inner := s.inner.write head value }.setSend t (.storeHead value head)) []
  | storeHead {t value head} (hpc : s.send t = .storeHead value head)
    : Step s (.storeHead t)
        ({ s with
            inner := s.inner.storeHead (head + 1#w)
            accepted := s.accepted ++ [value] }.setSend t .idle)
        [.ret (.inl t) (.sent (.ok ()))]
  | tryRecv {c} (hpc : s.recv c = .idle)
    : Step s (.tryRecv c)
        ({ s with tailAt := update s.tailAt c s.received.length }.setRecv c
          (.loadHead s.inner.tail))
        [.call (.inr c) .recv]
  | empty {c tail} (hpc : s.recv c = .loadHead tail) (hempty : tail = s.inner.head)
    : Step s (.loadHead c) (s.setRecv c .idle) [.ret (.inr c) (.received none)]
  | nonempty {c tail} (hpc : s.recv c = .loadHead tail) (hne : tail ≠ s.inner.head)
    : Step s (.loadHead c) (s.setRecv c (.read tail)) []
  | read {c tail} (hpc : s.recv c = .read tail)
    : Step s (.read c) (s.setRecv c (.storeTail tail (s.inner.read tail))) []
  | storeTail {c tail value} (hpc : s.recv c = .storeTail tail value)
    : Step s (.storeTail c)
        ({ s with
            inner := s.inner.storeTail (tail + 1#w)
            received := s.received ++ [value] }.setRecv c .idle)
        [.ret (.inr c) (.received (some value))]

theorem Step.of_step {s s' : State L τ κ α} {a : Act τ κ α}
    {es : List (Event (τ ⊕ κ) (Op α) (Res α))} (h : s.step a = some (s', es)) : Step s a s' es := by
  cases a <;> simp only [State.step] at h <;> split at h <;> (try split at h) <;>
    simp only [Option.some.injEq, Prod.mk.injEq, reduceCtorEq] at h <;> rcases h with ⟨rfl, rfl⟩
  . exact .trySend ‹_›
  . exact .full ‹_› ‹_›
  . exact .room ‹_› ‹_›
  . exact .write ‹_›
  . exact .storeHead ‹_›
  . exact .tryRecv ‹_›
  . exact .empty ‹_› ‹_›
  . exact .nonempty ‹_› ‹_›
  . exact .read ‹_›
  . exact .storeTail ‹_›

end Spsc
