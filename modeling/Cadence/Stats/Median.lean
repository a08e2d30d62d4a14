import Mathlib.Algebra.Order.Field.Basic
import Mathlib.Data.List.GetD
import Mathlib.Data.List.Sort
import Mathlib.Tactic.Linarith

/-!
This module contains the median and the spread of a sample, by nearest rank.
-/

namespace Stats

variable {α : Type} [LinearOrder α]

def sort (l : List α) : List α :=
  l.insertionSort (· ≤ ·)

@[simp]
theorem length_sort (l : List α) : (sort l).length = l.length := by
  apply List.length_insertionSort

@[simp]
theorem mem_sort {l : List α} {a : α} : a ∈ sort l ↔ a ∈ l := by
  apply List.mem_insertionSort

theorem sort_eq_of_perm {l l' : List α} (h : l.Perm l') : sort l = sort l' := by
  apply List.Perm.eq_of_pairwise' (r := (· ≤ ·))
  . apply List.pairwise_insertionSort
  . apply List.pairwise_insertionSort
  . apply ((List.perm_insertionSort _ l).trans h).trans (List.perm_insertionSort _ l').symm

theorem getD_sort_mem [Zero α] {l : List α} {i : Nat} (h : i < l.length) : (sort l).getD i 0 ∈ l := by
  rw [← length_sort] at h
  rw [List.getD_eq_getElem _ _ h, ← mem_sort]
  apply List.getElem_mem

theorem getD_sort_of_forall [Zero α] {l : List α} {p : α → Prop} (h : ∀ a ∈ l, p a) (hzero : p 0)
    (i : Nat) : p ((sort l).getD i 0) := by
  by_cases hi : i < l.length
  . apply h _ (getD_sort_mem hi)
  . rw [List.getD_eq_default _ _ (by rw [length_sort]; omega)]
    apply hzero

theorem getD_sort_le [Zero α] {l : List α} {i j : Nat} (hij : i ≤ j) (hj : j < l.length)
    : (sort l).getD i 0 ≤ (sort l).getD j 0 := by
  rw [← length_sort] at hj
  rw [List.getD_eq_getElem _ _ (by omega), List.getD_eq_getElem _ _ hj]
  apply List.sortedLE_insertionSort.getElem_le_getElem_of_le hij

variable [Field α] [IsStrictOrderedRing α]

/--
The median of no values is 0.
-/
def median (l : List α) : α :=
  let s := sort l
  let n := l.length
  if n % 2 = 1 then s.getD (n / 2) 0 else (s.getD (n / 2 - 1) 0 + s.getD (n / 2) 0) / 2

omit [IsStrictOrderedRing α] in
@[simp]
theorem median_singleton (a : α) : median [a] = a := by
  simp [median, sort]

theorem median_nonneg {l : List α} (h : ∀ a ∈ l, 0 ≤ a) : 0 ≤ median l := by
  have hget := getD_sort_of_forall h (le_refl 0)
  unfold median
  dsimp only
  split
  . apply hget
  . have := hget (l.length / 2 - 1)
    have := hget (l.length / 2)
    linarith

theorem median_lt {l : List α} {c : α} (h : ∀ a ∈ l, a < c) (hc : 0 < c) : median l < c := by
  have hget := getD_sort_of_forall (p := (· < c)) h hc
  unfold median
  dsimp only
  split
  . apply hget
  . have := hget (l.length / 2 - 1)
    have := hget (l.length / 2)
    linarith

theorem median_pos {l : List α} (hne : l ≠ []) (h : ∀ a ∈ l, 0 < a) : 0 < median l := by
  have hlength : 0 < l.length := List.length_pos_iff.mpr hne
  have hget {i : Nat} (hi : i < l.length) : 0 < (sort l).getD i 0 := h _ (getD_sort_mem hi)
  unfold median
  dsimp only
  split
  . apply hget
    omega
  . have := @hget (l.length / 2 - 1) (by omega)
    have := @hget (l.length / 2) (by omega)
    linarith

theorem sort_map_mul {c : α} (hc : 0 < c) (l : List α)
    : sort (l.map (c * ·)) = (sort l).map (c * ·) := by
  symm
  apply List.map_insertionSort
  intro a _ b _
  exact (mul_le_mul_iff_right₀ hc).symm

omit [IsStrictOrderedRing α] in
theorem median_of_forall_eq_zero {l : List α} (h : ∀ a ∈ l, a = 0) : median l = 0 := by
  have hget := getD_sort_of_forall (p := (· = 0)) h rfl
  unfold median
  dsimp only
  split
  . apply hget
  . rw [hget, hget, add_zero, zero_div]

/--
The median does not depend on the unit.
-/
theorem median_map_mul {c : α} (hc : 0 ≤ c) (l : List α) : median (l.map (c * ·)) = c * median l := by
  rcases hc.eq_or_lt with rfl | hc
  . rw [zero_mul]
    apply median_of_forall_eq_zero
    simp
  . have hget (i : Nat) : ((sort l).map (c * ·)).getD i 0 = c * (sort l).getD i 0 := by
      have hmap := @List.getD_map _ _ (sort l) 0 i (c * ·)
      rw [mul_zero] at hmap
      exact hmap
    unfold median
    dsimp only
    rw [sort_map_mul hc, List.length_map, hget, hget]
    split
    . rfl
    . rw [← mul_add, mul_div_assoc]

def spread (l : List α) : α :=
  (sort l).getD (3 * l.length / 4) 0 - (sort l).getD (l.length / 4) 0

/--
Of two or three values the quartiles are the least and the greatest.
-/
theorem spread_le_iff {l : List α} {c : α} (h : l.length = 2 ∨ l.length = 3)
    : spread l ≤ c ↔ ∀ a ∈ l, ∀ b ∈ l, a - b ≤ c := by
  have hfirst : l.length / 4 = 0 := by omega
  have hlast : 3 * l.length / 4 = l.length - 1 := by omega
  unfold spread
  rw [hfirst, hlast]
  constructor
  . intro hle a ha b hb
    rw [← mem_sort, List.mem_iff_getElem] at ha hb
    rcases ha with ⟨i, hi, rfl⟩
    rcases hb with ⟨j, hj, rfl⟩
    have hi' := hi
    have hj' := hj
    rw [length_sort] at hi' hj'
    have hupper : (sort l).getD i 0 ≤ (sort l).getD (l.length - 1) 0 :=
      getD_sort_le (by omega) (by omega)
    have hlower : (sort l).getD 0 0 ≤ (sort l).getD j 0 := getD_sort_le (Nat.zero_le j) hj'
    rw [List.getD_eq_getElem _ _ hi] at hupper
    rw [List.getD_eq_getElem _ _ hj] at hlower
    linarith
  . intro hall
    apply hall
    . apply getD_sort_mem
      omega
    . apply getD_sort_mem
      omega

end Stats
