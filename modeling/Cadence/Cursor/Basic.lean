import Mathlib.Data.Nat.ModEq

/-!
This module contains facts about counters that are kept modulo `2 ^ w` in a machine word, next to
the unbounded counters they stand for: distances of nearby counters, and positions in a buffer
whose size is a power of two.
-/

namespace Cursor

variable {w : Nat}

theorem ofNat_succ (n : Nat) : BitVec.ofNat w (n + 1) = BitVec.ofNat w n + 1#w := by
  rw [BitVec.ofNat_add]

theorem toNat_ofNat_sub_ofNat {r n : Nat} (hle : r ≤ n) (hlt : n - r < 2 ^ w)
    : (BitVec.ofNat w n - BitVec.ofNat w r).toNat = n - r := by
  rcases Nat.exists_eq_add_of_le hle with ⟨d, rfl⟩
  have hd : d < 2 ^ w := by omega
  rw [BitVec.ofNat_add, BitVec.add_comm, BitVec.add_sub_cancel, BitVec.toNat_ofNat]
  rw [Nat.mod_eq_of_lt hd]
  omega

theorem ofNat_eq_ofNat_iff {r n : Nat} (hle : r ≤ n) (hlt : n - r < 2 ^ w)
    : BitVec.ofNat w r = BitVec.ofNat w n ↔ r = n := by
  constructor
  . intro h
    have hsub := toNat_ofNat_sub_ofNat hle hlt
    rw [h, BitVec.sub_self] at hsub
    have hzero : n - r = 0 := by simpa using hsub.symm
    omega
  . rintro rfl
    rfl

theorem toNat_and_mask {k : Nat} (hk : k < w) (x : BitVec w)
    : (x &&& BitVec.ofNat w (2 ^ k - 1)).toNat = x.toNat % 2 ^ k := by
  have hpow : 2 ^ k < 2 ^ w := Nat.pow_lt_pow_right (by omega) hk
  have hpos : 0 < 2 ^ k := Nat.two_pow_pos k
  rw [BitVec.toNat_and, BitVec.toNat_ofNat, Nat.mod_eq_of_lt (by omega)]
  apply Nat.and_two_pow_sub_one_eq_mod _ _

theorem toNat_ofNat_mod {k : Nat} (hk : k ≤ w) (n : Nat)
    : (BitVec.ofNat w n).toNat % 2 ^ k = n % 2 ^ k := by
  rw [BitVec.toNat_ofNat]
  apply Nat.mod_mod_of_dvd n (Nat.pow_dvd_pow 2 hk)

theorem toNat_sub_add_one {head tail : BitVec w} (hne : tail ≠ head)
    : (head - tail).toNat = (head - (tail + 1#w)).toNat + 1 := by
  have hpos : (head - tail).toNat ≠ 0 := by
    intro h
    have hzero : head - tail = 0#w := BitVec.eq_of_toNat_eq (by simpa using h)
    rw [BitVec.sub_eq_iff_eq_add, BitVec.zero_add] at hzero
    exact hne hzero.symm
  have hlt := (head - tail).isLt
  have hone : 1#w ≤ head - tail := by
    rw [BitVec.le_def, BitVec.toNat_ofNat, Nat.mod_eq_of_lt (by omega)]
    omega
  rw [← BitVec.sub_sub, BitVec.toNat_sub_of_le hone, BitVec.toNat_ofNat, Nat.mod_eq_of_lt (by omega)]
  omega

theorem mod_ne_mod {i j c : Nat} (hlt : i < j) (hturn : j < i + c) : i % c ≠ j % c := by
  intro h
  have hdvd : c ∣ j - i := (Nat.modEq_iff_dvd' (by omega)).mp h
  have := Nat.le_of_dvd (by omega) hdvd
  omega

end Cursor
