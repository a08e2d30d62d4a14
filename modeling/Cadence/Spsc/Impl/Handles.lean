import Cadence.Spsc.Impl.Threads

/-!
This module contains the life of the two handles of a ring: each is used by one thread until it is
dropped, and the second drop runs `Inner::drop`.
-/

open Lts

namespace Spsc

/--
`producer` and `consumer` say which handles are alive. `dropped` are the slots that `Inner::drop`
has dropped, `none` before it ran.
-/
structure Handles {w : Nat} (L : Layout w) (α : Type) where
  ring : State L Unit Unit α
  producer : Bool
  consumer : Bool
  dropped : Option (List (MaybeUninit α))

inductive HandlesAct (α : Type) where
  | producer (a : Act Unit Unit α)
  | consumer (a : Act Unit Unit α)
  | dropProducer
  | dropConsumer
  deriving DecidableEq, Repr

def Act.isSend {τ κ α : Type} : Act τ κ α → Bool
  | .trySend .. | .loadTail .. | .write .. | .storeHead .. => true
  | .tryRecv .. | .loadHead .. | .read .. | .storeTail .. => false

namespace Handles

variable {w : Nat} {L : Layout w} {α : Type}

def init (L : Layout w) (α : Type) : Handles L α where
  ring := .init L Unit Unit α
  producer := true
  consumer := true
  dropped := none

def setRing (h : Handles L α) (ring : State L Unit Unit α) : Handles L α :=
  { h with ring := ring }

/--
The decrement of the reference count in `Arc::drop`: the last handle takes `Inner` with it.
-/
def release (h : Handles L α) : Handles L α :=
  if h.producer || h.consumer then
    h
  else
    { h with dropped := some h.ring.inner.drop }

/--
A handle can be dropped, as a call borrows it, only between two calls.
-/
def step (h : Handles L α)
    : HandlesAct α → Option (Handles L α × List (Event (Unit ⊕ Unit) (Op α) (Res α)))
  | .producer a =>
    if h.producer && a.isSend then
      (h.ring.step a).map fun (ring, es) => (h.setRing ring, es)
    else
      none
  | .consumer a =>
    if h.consumer && !a.isSend then
      (h.ring.step a).map fun (ring, es) => (h.setRing ring, es)
    else
      none
  | .dropProducer =>
    match h.producer, h.ring.send () with
    | true, .idle => some ({ h with producer := false }.release, [])
    | _, _ => none
  | .dropConsumer =>
    match h.consumer, h.ring.recv () with
    | true, .idle => some ({ h with consumer := false }.release, [])
    | _, _ => none

end Handles

def handles {w : Nat} (L : Layout w) (α : Type)
    : System (Handles L α) (HandlesAct α) (Event (Unit ⊕ Unit) (Op α) (Res α)) where
  init := .init L α
  step := Handles.step

inductive HandlesStep {w : Nat} {L : Layout w} {α : Type} (h : Handles L α)
    : HandlesAct α → Handles L α → List (Event (Unit ⊕ Unit) (Op α) (Res α)) → Prop where
  | producer {a ring es} (halive : h.producer = true) (hsend : a.isSend = true)
      (hring : h.ring.step a = some (ring, es))
    : HandlesStep h (.producer a) (h.setRing ring) es
  | consumer {a ring es} (halive : h.consumer = true) (hrecv : a.isSend = false)
      (hring : h.ring.step a = some (ring, es))
    : HandlesStep h (.consumer a) (h.setRing ring) es
  | dropProducer (halive : h.producer = true) (hidle : h.ring.send () = .idle)
    : HandlesStep h .dropProducer { h with producer := false }.release []
  | dropConsumer (halive : h.consumer = true) (hidle : h.ring.recv () = .idle)
    : HandlesStep h .dropConsumer { h with consumer := false }.release []

theorem HandlesStep.of_step {w : Nat} {L : Layout w} {α : Type} {h h' : Handles L α}
    {a : HandlesAct α} {es : List (Event (Unit ⊕ Unit) (Op α) (Res α))}
    (hstep : h.step a = some (h', es)) : HandlesStep h a h' es := by
  cases a with
  | producer a =>
    simp only [Handles.step, Option.ite_none_right_eq_some, Bool.and_eq_true, Option.map_eq_some_iff,
      Prod.mk.injEq, Prod.exists] at hstep
    rcases hstep with ⟨⟨halive, hsend⟩, ring, es, hring, rfl, rfl⟩
    exact .producer halive hsend hring
  | consumer a =>
    simp only [Handles.step, Option.ite_none_right_eq_some, Bool.and_eq_true, Bool.not_eq_true',
      Option.map_eq_some_iff, Prod.mk.injEq, Prod.exists] at hstep
    rcases hstep with ⟨⟨halive, hrecv⟩, ring, es, hring, rfl, rfl⟩
    exact .consumer halive hrecv hring
  | dropProducer =>
    simp only [Handles.step] at hstep
    split at hstep
    . next halive hidle =>
      simp only [Option.some.injEq, Prod.mk.injEq] at hstep
      rcases hstep with ⟨rfl, rfl⟩
      exact .dropProducer halive hidle
    . contradiction
  | dropConsumer =>
    simp only [Handles.step] at hstep
    split at hstep
    . next halive hidle =>
      simp only [Option.some.injEq, Prod.mk.injEq] at hstep
      rcases hstep with ⟨rfl, rfl⟩
      exact .dropConsumer halive hidle
    . contradiction

def HandlesAct.act? {α : Type} : HandlesAct α → Option (Act Unit Unit α)
  | .producer a | .consumer a => some a
  | .dropProducer | .dropConsumer => none

/--
The accesses of the ring in a life of its handles.
-/
def ringActs {α : Type} (acts : List (HandlesAct α)) : List (Act Unit Unit α) :=
  acts.filterMap HandlesAct.act?

end Spsc
