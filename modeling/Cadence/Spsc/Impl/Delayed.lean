import Mathlib.Tactic.Simps.Basic
import Cadence.Lts.Basic
import Cadence.Spsc.Impl.Ring

/-!
This module contains the ring under delayed visibility: one producer thread and one consumer thread
that see the Release stores of the other side in order but possibly late, together with exactly the
slot accesses that preceded the store.
-/

open Lts

namespace Spsc

/--
A Release store of a cursor: its value, and how many slot accesses of the storing side precede it.
-/
structure StoreMsg (w : Nat) where
  value : BitVec w
  accesses : Nat
  deriving DecidableEq, Repr

def lastWrite {c : Nat} {α : Type} (slot : Fin c) (writes : List (Fin c × α)) : Option (Nat × α) :=
  writes.zipIdx.foldl
    (fun found ((i, value), n) => if i = slot then some (n, value) else found) none

/--
`heads` and `tails` are the stores of the two cursors, oldest first and starting with the initial
value. `seenTail` and `seenHead` are the positions of the newest store that the other side has
observed. `writes` and `reads` are the slot accesses: a read records whose write it returned.
-/
structure Delayed {w : Nat} (L : Layout w) (α : Type) where
  heads : List (StoreMsg w)
  tails : List (StoreMsg w)
  writes : List (Fin L.capacity × α)
  reads : List (Fin L.capacity × Option Nat)
  send : SendPc w α
  recv : RecvPc w α
  seenTail : Nat
  seenHead : Nat
  accepted : List α
  received : List (MaybeUninit α)

/--
`loadTail i` and `loadHead i` are Acquire loads that observe the `i`-th store.
-/
inductive DelayedAct (α : Type) where
  | trySend (value : α)
  | loadTail (i : Nat)
  | write
  | storeHead
  | tryRecv
  | loadHead (i : Nat)
  | read
  | storeTail
  deriving DecidableEq, Repr

namespace Delayed

variable {w : Nat} {L : Layout w} {α : Type}

def init (L : Layout w) (α : Type) : Delayed L α where
  heads := [⟨0#w, 0⟩]
  tails := [⟨0#w, 0⟩]
  writes := []
  reads := []
  send := .idle
  recv := .idle
  seenTail := 0
  seenHead := 0
  accepted := []
  received := []

def visibleWrites (s : Delayed L α) : List (Fin L.capacity × α) :=
  match s.heads[s.seenHead]? with
  | some msg => s.writes.take msg.accesses
  | none => []

def readSlot (s : Delayed L α) (tail : BitVec w) : Option Nat × MaybeUninit α :=
  match lastWrite (L.slot tail) s.visibleWrites with
  | some (n, value) => (some n, .init value)
  | none => (none, .uninit)

@[simps]
def setSend (s : Delayed L α) (pc : SendPc w α) : Delayed L α :=
  { s with send := pc }

@[simps]
def setRecv (s : Delayed L α) (pc : RecvPc w α) : Delayed L α :=
  { s with recv := pc }

def step (s : Delayed L α) : DelayedAct α → Option (Delayed L α × List Unit)
  | .trySend value =>
    match s.send, s.heads.getLast? with
    | .idle, some msg => some (s.setSend (.loadTail value msg.value), [])
    | _, _ => none
  | .loadTail i =>
    match s.send, s.tails[i]? with
    | .loadTail value head, some msg =>
      if s.seenTail ≤ i then
        let s := { s with seenTail := i }
        if L.isFull head msg.value then
          some (s.setSend .idle, [])
        else
          some (s.setSend (.write value head), [])
      else
        none
    | _, _ => none
  | .write =>
    match s.send with
    | .write value head =>
      let s := { s with writes := s.writes ++ [(L.slot head, value)] }
      some (s.setSend (.storeHead value head), [])
    | _ => none
  | .storeHead =>
    match s.send with
    | .storeHead value head =>
      let s := { s with
        heads := s.heads ++ [StoreMsg.mk (head + 1#w) s.writes.length]
        accepted := s.accepted ++ [value] }
      some (s.setSend .idle, [])
    | _ => none
  | .tryRecv =>
    match s.recv, s.tails.getLast? with
    | .idle, some msg => some (s.setRecv (.loadHead msg.value), [])
    | _, _ => none
  | .loadHead i =>
    match s.recv, s.heads[i]? with
    | .loadHead tail, some msg =>
      if s.seenHead ≤ i then
        let s := { s with seenHead := i }
        if tail = msg.value then
          some (s.setRecv .idle, [])
        else
          some (s.setRecv (.read tail), [])
      else
        none
    | _, _ => none
  | .read =>
    match s.recv with
    | .read tail =>
      let (n, value) := s.readSlot tail
      let s := { s with reads := s.reads ++ [(L.slot tail, n)] }
      some (s.setRecv (.storeTail tail value), [])
    | _ => none
  | .storeTail =>
    match s.recv with
    | .storeTail tail value =>
      let s := { s with
        tails := s.tails ++ [StoreMsg.mk (tail + 1#w) s.reads.length]
        received := s.received ++ [value] }
      some (s.setRecv .idle, [])
    | _ => none

end Delayed

def delayed {w : Nat} (L : Layout w) (α : Type) : System (Delayed L α) (DelayedAct α) Unit where
  init := .init L α
  step := Delayed.step

inductive DelayedStep {w : Nat} {L : Layout w} {α : Type} (s : Delayed L α)
    : DelayedAct α → Delayed L α → Prop where
  | trySend {value msg} (hpc : s.send = .idle) (hmsg : s.heads.getLast? = some msg)
    : DelayedStep s (.trySend value) (s.setSend (.loadTail value msg.value))
  | full {value head i msg} (hpc : s.send = .loadTail value head) (hmsg : s.tails[i]? = some msg)
      (hseen : s.seenTail ≤ i) (hfull : L.isFull head msg.value)
    : DelayedStep s (.loadTail i) ({ s with seenTail := i }.setSend .idle)
  | room {value head i msg} (hpc : s.send = .loadTail value head) (hmsg : s.tails[i]? = some msg)
      (hseen : s.seenTail ≤ i) (hroom : ¬ L.isFull head msg.value)
    : DelayedStep s (.loadTail i) ({ s with seenTail := i }.setSend (.write value head))
  | write {value head} (hpc : s.send = .write value head)
    : DelayedStep s .write
        ({ s with writes := s.writes ++ [(L.slot head, value)] }.setSend (.storeHead value head))
  | storeHead {value head} (hpc : s.send = .storeHead value head)
    : DelayedStep s .storeHead
        ({ s with
            heads := s.heads ++ [StoreMsg.mk (head + 1#w) s.writes.length]
            accepted := s.accepted ++ [value] }.setSend .idle)
  | tryRecv {msg} (hpc : s.recv = .idle) (hmsg : s.tails.getLast? = some msg)
    : DelayedStep s .tryRecv (s.setRecv (.loadHead msg.value))
  | empty {tail i msg} (hpc : s.recv = .loadHead tail) (hmsg : s.heads[i]? = some msg)
      (hseen : s.seenHead ≤ i) (hempty : tail = msg.value)
    : DelayedStep s (.loadHead i) ({ s with seenHead := i }.setRecv .idle)
  | nonempty {tail i msg} (hpc : s.recv = .loadHead tail) (hmsg : s.heads[i]? = some msg)
      (hseen : s.seenHead ≤ i) (hne : tail ≠ msg.value)
    : DelayedStep s (.loadHead i) ({ s with seenHead := i }.setRecv (.read tail))
  | read {tail} (hpc : s.recv = .read tail)
    : DelayedStep s .read
        ({ s with reads := s.reads ++ [(L.slot tail, (s.readSlot tail).1)] }.setRecv
          (.storeTail tail (s.readSlot tail).2))
  | storeTail {tail value} (hpc : s.recv = .storeTail tail value)
    : DelayedStep s .storeTail
        ({ s with
            tails := s.tails ++ [StoreMsg.mk (tail + 1#w) s.reads.length]
            received := s.received ++ [value] }.setRecv .idle)

theorem DelayedStep.of_step {w : Nat} {L : Layout w} {α : Type} {s s' : Delayed L α}
    {a : DelayedAct α} {es : List Unit} (h : s.step a = some (s', es)) : DelayedStep s a s' := by
  cases a <;> simp only [Delayed.step] at h <;> split at h <;> (try split at h) <;>
    (try split at h) <;>
    simp only [Option.some.injEq, Prod.mk.injEq, reduceCtorEq] at h <;> rcases h with ⟨rfl, rfl⟩
  . exact .trySend ‹_› ‹_›
  . exact .full ‹_› ‹_› ‹_› ‹_›
  . exact .room ‹_› ‹_› ‹_› ‹_›
  . exact .write ‹_›
  . exact .storeHead ‹_›
  . exact .tryRecv ‹_› ‹_›
  . exact .empty ‹_› ‹_› ‹_› ‹_›
  . exact .nonempty ‹_› ‹_› ‹_› ‹_›
  . exact .read ‹_›
  . exact .storeTail ‹_›

end Spsc
