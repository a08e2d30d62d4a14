import Cadence.Spsc.Impl.Threads

/-!
This module contains what the ring is for: a FIFO queue that never holds more than `capacity`
values, as a sequential object.
-/

open Lts

namespace Spsc

/--
The contents of a queue of at most `capacity` values, oldest first.
-/
structure Contents (capacity : Nat) (α : Type) where
  values : List α
  bounded : values.length ≤ capacity

namespace Contents

variable {capacity : Nat} {α : Type}

def empty : Contents capacity α := ⟨[], Nat.zero_le _⟩

def enqueue (q : Contents capacity α) (value : α) (h : q.values.length < capacity)
    : Contents capacity α :=
  ⟨q.values ++ [value], List.length_append ▸ h⟩

def dequeue (q : Contents capacity α) : Contents capacity α :=
  ⟨q.values.tail, by have := q.bounded; simp; omega⟩

end Contents

def boundedQueue (capacity : Nat) (α : Type) : Object (Contents capacity α) (Op α) (Res α) where
  init := .empty
  apply := fun q op =>
    match op with
    | .send value =>
      if h : q.values.length < capacity then
        (q.enqueue value h, .sent (.ok ()))
      else
        (q, .sent (.error value))
    | .recv => (q.dequeue, .received (q.values.head?.map .init))

end Spsc
