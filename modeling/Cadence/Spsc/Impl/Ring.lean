import Mathlib.Data.Fintype.Basic
import Cadence.Cursor.Basic

/-!
This module contains the shared state of the SPSC ring and the pieces of `try_send`, `try_recv` and
`Inner::drop` between two accesses to it. The systems that interleave these pieces are in the
modules `Threads`, `Handles` and `Delayed`.
-/

namespace Spsc

/--
A capacity that passes the assertion of `spsc`: a non-zero power of two. As it is a `usize` of `w`
bits it is below `2 ^ w`.
-/
structure Layout (w : Nat) where
  capacity : Nat
  isPowerOfTwo : ∃ k, k < w ∧ capacity = 2 ^ k

/--
The memory of one slot. Reading a value out of it leaves the bits where they are.
-/
inductive MaybeUninit (α : Type) where
  | uninit
  | init (value : α)
  deriving DecidableEq, Repr

namespace Layout

variable {w : Nat} (L : Layout w)

theorem capacity_pos : 0 < L.capacity := by
  rcases L.isPowerOfTwo with ⟨k, _, hk⟩
  rw [hk]
  apply Nat.two_pow_pos k

theorem capacity_lt : L.capacity < 2 ^ w := by
  rcases L.isPowerOfTwo with ⟨k, hlt, hk⟩
  have : 0 < w := by omega
  rw [hk]
  apply Nat.pow_lt_pow_right (by omega) hlt

def mask : BitVec w := BitVec.ofNat w (L.capacity - 1)

theorem toNat_mask : L.mask.toNat = L.capacity - 1 := by
  have := L.capacity_lt
  rw [mask, BitVec.toNat_ofNat, Nat.mod_eq_of_lt (by omega)]

theorem toNat_and_mask (cursor : BitVec w)
    : (cursor &&& L.mask).toNat = cursor.toNat % L.capacity := by
  rcases L.isPowerOfTwo with ⟨k, hlt, hk⟩
  rw [mask, hk, Cursor.toNat_and_mask hlt]

/--
The slot `cursor & mask`. The index is in bounds, so `slots[..]` never panics.
-/
def slot (cursor : BitVec w) : Fin L.capacity :=
  ⟨(cursor &&& L.mask).toNat, by rw [toNat_and_mask]; exact Nat.mod_lt _ L.capacity_pos⟩

/--
The test of `try_send`: `head.wrapping_sub(tail) > mask`.
-/
def isFull (head tail : BitVec w) : Bool :=
  decide (L.mask < head - tail)

end Layout

structure Inner {w : Nat} (L : Layout w) (α : Type) where
  head : BitVec w
  tail : BitVec w
  slots : Vector (MaybeUninit α) L.capacity

namespace Inner

variable {w : Nat} {L : Layout w} {α : Type}

def new (L : Layout w) (α : Type) : Inner L α where
  head := 0#w
  tail := 0#w
  slots := Vector.replicate L.capacity .uninit

/--
`slots[head & mask].write(value)`.
-/
def write (inner : Inner L α) (head : BitVec w) (value : α) : Inner L α :=
  { inner with slots := inner.slots.set (L.slot head) (.init value) }

/--
`slots[tail & mask].assume_init_read()`, which is undefined behaviour on an uninitialised slot.
-/
def read (inner : Inner L α) (tail : BitVec w) : MaybeUninit α :=
  inner.slots[L.slot tail]

def storeHead (inner : Inner L α) (head : BitVec w) : Inner L α :=
  { inner with head := head }

def storeTail (inner : Inner L α) (tail : BitVec w) : Inner L α :=
  { inner with tail := tail }

/--
The loop of `Inner::drop` from a value of the local `tail`: the slots it drops, in order. It ends
for any two cursors, as `head - tail` shrinks.
-/
def dropFrom (inner : Inner L α) (tail : BitVec w) : List (MaybeUninit α) :=
  if tail = inner.head then
    []
  else
    inner.read tail :: inner.dropFrom (tail + 1#w)
termination_by (inner.head - tail).toNat
decreasing_by
  rw [Cursor.toNat_sub_add_one ‹tail ≠ inner.head›]
  omega

def drop (inner : Inner L α) : List (MaybeUninit α) :=
  inner.dropFrom inner.tail

end Inner

/--
`spsc(capacity)`; `none` is the failed assertion.
-/
def spsc {w : Nat} (α : Type) (capacity : BitVec w) : Option ((L : Layout w) × Inner L α) :=
  if h : ∃ k, k < w ∧ capacity.toNat = 2 ^ k then
    some ⟨⟨capacity.toNat, h⟩, Inner.new _ α⟩
  else
    none

theorem spsc_capacity {w : Nat} (L : Layout w) (α : Type)
    : spsc α (BitVec.ofNat w L.capacity) = some ⟨L, Inner.new L α⟩ := by
  have hcapacity : (BitVec.ofNat w L.capacity).toNat = L.capacity := by
    rw [BitVec.toNat_ofNat, Nat.mod_eq_of_lt L.capacity_lt]
  rw [spsc, dif_pos (by rw [hcapacity]; exact L.isPowerOfTwo)]
  congr

/--
Where a thread is inside `try_send`: the next access it makes, and its locals.
-/
inductive SendPc (w : Nat) (α : Type) where
  | idle
  | loadTail (value : α) (head : BitVec w)
  | write (value : α) (head : BitVec w)
  | storeHead (value : α) (head : BitVec w)
  deriving DecidableEq, Repr

inductive RecvPc (w : Nat) (α : Type) where
  | idle
  | loadHead (tail : BitVec w)
  | read (tail : BitVec w)
  | storeTail (tail : BitVec w) (value : MaybeUninit α)
  deriving DecidableEq, Repr

end Spsc
