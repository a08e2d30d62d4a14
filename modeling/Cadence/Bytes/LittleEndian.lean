import Mathlib.Data.List.Basic
import Mathlib.Tactic.Ring

/-!
This module contains fixed-width little-endian encodings of naturals as lists of bytes.
-/

namespace Bytes

def toLe : Nat → Nat → List UInt8
  | 0, _ => []
  | width + 1, n => UInt8.ofNat n :: toLe width (n / 256)

def ofLe : List UInt8 → Nat
  | [] => 0
  | byte :: bytes => byte.toNat + 256 * ofLe bytes

@[simp]
theorem length_toLe (width n : Nat) : (toLe width n).length = width := by
  fun_induction toLe width n with
  | case1 => rfl
  | case2 n width ih => rw [List.length_cons, ih]

theorem ofLe_toLe {width n : Nat} (h : n < 256 ^ width) : ofLe (toLe width n) = n := by
  fun_induction toLe width n with
  | case1 n =>
    rw [pow_zero] at h
    unfold ofLe
    omega
  | case2 n width ih =>
    unfold ofLe
    rw [ih (by rw [pow_succ] at h; omega), UInt8.toNat_ofNat']
    omega

theorem toLe_ofLe (bytes : List UInt8) : toLe bytes.length (ofLe bytes) = bytes := by
  induction bytes with
  | nil => rfl
  | cons byte bytes ih =>
    have hbyte := byte.toNat_lt
    rw [List.length_cons]
    unfold toLe ofLe
    rw [show (byte.toNat + 256 * ofLe bytes) / 256 = ofLe bytes by omega, ih]
    congr 1
    apply UInt8.toNat_inj.mp
    rw [UInt8.toNat_ofNat']
    omega

theorem ofLe_lt (bytes : List UInt8) : ofLe bytes < 256 ^ bytes.length := by
  induction bytes with
  | nil => decide
  | cons byte bytes ih =>
    have hbyte := byte.toNat_lt
    rw [List.length_cons, pow_succ]
    unfold ofLe
    omega

end Bytes
