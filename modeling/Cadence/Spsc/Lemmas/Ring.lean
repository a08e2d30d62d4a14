import Cadence.Spsc.Impl.Ring

/-!
This module contains the abstraction of the ring: when its cursors and slots hold the unread part
of a sequence of accepted values, and how the accesses of both sides move that part.
-/

namespace Spsc

variable {w : Nat} {L : Layout w} {α : Type}

theorem append_eq_take_succ {accepted : List α} {received : List (MaybeUninit α)}
    {value : MaybeUninit α} (hfifo : received = (accepted.take received.length).map .init)
    (hvalue : accepted[received.length]?.map .init = some value)
    : received ++ [value] = (accepted.take (received.length + 1)).map .init := by
  rw [List.take_add_one, List.map_append, ← hfifo, ← Option.toList_map, hvalue]
  rfl

namespace Layout

theorem slot_ofNat (n : Nat) : (L.slot (BitVec.ofNat w n)).val = n % L.capacity := by
  rcases L.isPowerOfTwo with ⟨k, hlt, hk⟩
  simp only [slot, toNat_and_mask]
  rw [hk, Cursor.toNat_ofNat_mod (by omega)]

theorem slot_ne_slot {i j : Nat} (hlt : i < j) (hturn : j < i + L.capacity)
    : L.slot (BitVec.ofNat w i) ≠ L.slot (BitVec.ofNat w j) := by
  intro h
  have hval := congrArg Fin.val h
  rw [slot_ofNat, slot_ofNat] at hval
  apply Cursor.mod_ne_mod hlt hturn hval

theorem isFull_ofNat {r n : Nat} (hle : r ≤ n) (hbound : n ≤ r + L.capacity)
    : L.isFull (BitVec.ofNat w n) (BitVec.ofNat w r) ↔ n = r + L.capacity := by
  have := L.capacity_lt
  have := L.capacity_pos
  rw [isFull, decide_eq_true_eq, BitVec.lt_def, toNat_mask]
  rw [Cursor.toNat_ofNat_sub_ofNat hle (by omega)]
  omega

theorem ofNat_eq_ofNat_iff {r n : Nat} (hle : r ≤ n) (hbound : n ≤ r + L.capacity)
    : BitVec.ofNat w r = BitVec.ofNat w n ↔ r = n := by
  have := L.capacity_lt
  apply Cursor.ofNat_eq_ofNat_iff hle (by omega)

end Layout

namespace Inner

/--
The ring holds `accepted.drop r`: `head` and `tail` are the words of `accepted.length` and `r`, and
the slots between them contain the values in between.
-/
structure Holds (inner : Inner L α) (accepted : List α) (r : Nat) : Prop where
  head : inner.head = BitVec.ofNat w accepted.length
  tail : inner.tail = BitVec.ofNat w r
  le : r ≤ accepted.length
  bound : accepted.length ≤ r + L.capacity
  slots : ∀ (i : Nat) (hi : i < accepted.length),
    r ≤ i → inner.read (BitVec.ofNat w i) = .init accepted[i]

theorem read_write_self (inner : Inner L α) (head : BitVec w) (value : α)
    : (inner.write head value).read head = .init value := by
  simp [read, write]

theorem read_write_of_ne (inner : Inner L α) {head cursor : BitVec w} (value : α)
    (h : L.slot cursor ≠ L.slot head)
    : (inner.write head value).read cursor = inner.read cursor := by
  have : (L.slot head).val ≠ (L.slot cursor).val := by
    intro hval
    exact h (Fin.ext hval.symm)
  simp [read, write, Vector.getElem_set_ne _ _ this]

@[simp]
theorem read_storeHead (inner : Inner L α) (head cursor : BitVec w)
    : (inner.storeHead head).read cursor = inner.read cursor := rfl

@[simp]
theorem read_storeTail (inner : Inner L α) (tail cursor : BitVec w)
    : (inner.storeTail tail).read cursor = inner.read cursor := rfl

theorem new_holds : (Inner.new L α).Holds [] 0 where
  head := by simp [new]
  tail := by simp [new]
  le := by simp
  bound := by simp
  slots := by simp

namespace Holds

variable {inner : Inner L α} {accepted : List α} {r : Nat}

theorem isFull_iff (h : inner.Holds accepted r)
    : L.isFull inner.head inner.tail ↔ accepted.length = r + L.capacity := by
  rw [h.head, h.tail]
  apply L.isFull_ofNat h.le h.bound

theorem isEmpty_iff (h : inner.Holds accepted r)
    : inner.tail = inner.head ↔ r = accepted.length := by
  rw [h.head, h.tail]
  apply L.ofNat_eq_ofNat_iff h.le h.bound

theorem write (h : inner.Holds accepted r) (value : α) (hroom : accepted.length < r + L.capacity)
    : (inner.write (BitVec.ofNat w accepted.length) value).Holds accepted r where
  head := h.head
  tail := h.tail
  le := h.le
  bound := h.bound
  slots := by
    intro i hi hr
    -- while the ring is not full, the slot of `head` is none of the unread ones
    rw [read_write_of_ne]
    . exact h.slots i hi hr
    . apply L.slot_ne_slot hi (by omega)

theorem storeHead (h : inner.Holds accepted r) {value : α}
    (hroom : accepted.length < r + L.capacity)
    (hslot : inner.read (BitVec.ofNat w accepted.length) = .init value)
    : (inner.storeHead (BitVec.ofNat w accepted.length + 1#w)).Holds (accepted ++ [value]) r where
  head := by
    rw [List.length_append, List.length_singleton]
    exact (Cursor.ofNat_succ _).symm
  tail := h.tail
  le := by
    have := h.le
    simp
    omega
  bound := by
    simp
    omega
  slots := by
    intro i hi hr
    rw [read_storeHead]
    by_cases hlt : i < accepted.length
    . rw [List.getElem_append_left hlt]
      exact h.slots i hlt hr
    . have : i = accepted.length := by
        simp at hi
        omega
      subst this
      simpa using hslot

theorem read (h : inner.Holds accepted r) (hlt : r < accepted.length)
    : inner.read (BitVec.ofNat w r) = .init accepted[r] :=
  h.slots r hlt (Nat.le_refl r)

theorem storeTail (h : inner.Holds accepted r) (hlt : r < accepted.length)
    : (inner.storeTail (BitVec.ofNat w r + 1#w)).Holds accepted (r + 1) where
  head := h.head
  tail := (Cursor.ofNat_succ r).symm
  le := hlt
  bound := by
    have := h.bound
    omega
  slots := by
    intro i hi hr
    exact h.slots i hi (by omega)

theorem dropFrom_eq (h : inner.Holds accepted r) {i : Nat} (hr : r ≤ i) (hi : i ≤ accepted.length)
    : inner.dropFrom (BitVec.ofNat w i) = (accepted.drop i).map .init := by
  have hbound := h.bound
  rw [dropFrom]
  split
  . next heq =>
    rw [h.head, L.ofNat_eq_ofNat_iff hi (by omega)] at heq
    simp [heq]
  . next hne =>
    rw [h.head, L.ofNat_eq_ofNat_iff hi (by omega)] at hne
    have hlt : i < accepted.length := by omega
    -- a round of the loop drops the oldest value that is left
    rw [h.slots i hlt hr, List.drop_eq_getElem_cons hlt, List.map_cons]
    rw [← Cursor.ofNat_succ, h.dropFrom_eq (by omega) hlt]
termination_by accepted.length - i

theorem drop_eq (h : inner.Holds accepted r) : inner.drop = (accepted.drop r).map .init := by
  rw [Inner.drop, h.tail]
  apply h.dropFrom_eq (Nat.le_refl r) h.le

end Holds

theorem length_dropFrom (inner : Inner L α) (tail : BitVec w)
    : (inner.dropFrom tail).length = (inner.head - tail).toNat := by
  fun_induction dropFrom inner tail with
  | case1 => simp
  | case2 tail hne ih => rw [List.length_cons, ih, Cursor.toNat_sub_add_one hne]

end Inner

def twoSlots : Layout 8 where
  capacity := 2
  isPowerOfTwo := ⟨1, by decide, rfl⟩

end Spsc
