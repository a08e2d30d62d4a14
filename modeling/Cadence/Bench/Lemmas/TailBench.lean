import Mathlib.Algebra.Order.Floor.Semifield
import Mathlib.Data.Rat.Floor
import Mathlib.Tactic.Linarith
import Cadence.Bench.Impl.TailBench
import Cadence.Stats.Median

/-!
This module contains what a PASS of the tail-latency benchmark says about the trials.
-/

namespace Bench
namespace TailBench

def value (v : UInt64) : ℚ :=
  (v.toNat : ℚ)

def values (p99s : List UInt64) : List ℚ :=
  p99s.map value

/--
The conversion to a float is exact where the spacing of the floats is one.
-/
theorem asF64_eq {n : UInt64} (h : n.toNat < 2 ^ 53) : asF64 n = value n := by
  have hlog : n.toNat.log2 - 52 = 0 := by
    by_cases hzero : n.toNat = 0
    . rw [hzero]
      rfl
    . have := (Nat.log2_lt hzero).mpr h
      omega
  unfold asF64 value
  simp [hlog, Nat.mod_one]

theorem sort_values (p99s : List UInt64)
    : Stats.sort (values p99s) = values (p99s.insertionSort (· ≤ ·)) := by
  unfold Stats.sort values
  rw [List.map_insertionSort (· ≤ ·) (· ≤ ·)]
  intro a _ b _
  unfold value
  rw [Nat.cast_le, UInt64.le_iff_toNat_le]

theorem getD_values (p99s : List UInt64) (i : Nat)
    : (values p99s).getD i 0 = value (p99s.getD i 0) := by
  have hzero : value 0 = 0 := Nat.cast_zero
  rw [← hzero]
  apply List.getD_map

theorem length_values (p99s : List UInt64) : (values p99s).length = p99s.length := by
  apply List.length_map

theorem insertionSort_eq_of_perm {p99s p99s' : List UInt64} (h : p99s.Perm p99s')
    : p99s.insertionSort (· ≤ ·) = p99s'.insertionSort (· ≤ ·) := by
  have hinj : Function.Injective value := by
    intro a b hab
    unfold value at hab
    rw [Nat.cast_inj] at hab
    apply UInt64.toNat_inj.mp hab
  apply hinj.list_map
  have hsort := Stats.sort_eq_of_perm (h.map value)
  change Stats.sort (values p99s) = Stats.sort (values p99s') at hsort
  rw [sort_values, sort_values] at hsort
  apply hsort

theorem runRate_passes_of_perm {p99s p99s' : List UInt64} (h : p99s.Perm p99s')
    : (runRate p99s').passesSubUs = (runRate p99s).passesSubUs := by
  unfold runRate
  rw [insertionSort_eq_of_perm h]

theorem getD_lt {p99s : List UInt64} (hbound : ∀ v ∈ p99s, v.toNat < 2 ^ 53) (i : Nat)
    : ((p99s.insertionSort (· ≤ ·)).getD i 0).toNat < 2 ^ 53 := by
  by_cases hi : i < (p99s.insertionSort (· ≤ ·)).length
  . rw [List.getD_eq_getElem _ _ hi]
    apply hbound
    rw [← List.mem_insertionSort (· ≤ ·)]
    apply List.getElem_mem
  . rw [List.getD_eq_default _ _ (Nat.le_of_not_lt hi)]
    decide

/--
The code rounds the median down.
-/
theorem toNat_median {p99s : List UInt64} (hbound : ∀ v ∈ p99s, v.toNat < 2 ^ 53)
    : (median (p99s.insertionSort (· ≤ ·))).toNat = ⌊Stats.median (values p99s)⌋₊ := by
  rcases eq_or_ne p99s [] with rfl | hne
  . simp [median, Stats.median, Stats.sort, values]
  have hlt := getD_lt hbound
  have hlength : p99s.length ≠ 0 := by simpa using hne
  unfold median Stats.median
  simp only [sort_values, getD_values, length_values, List.length_insertionSort]
  rw [if_neg hlength]
  split
  . unfold value
    rw [Nat.floor_natCast]
  . have ha := hlt (p99s.length / 2 - 1)
    have hb := hlt (p99s.length / 2)
    generalize (p99s.insertionSort (· ≤ ·)).getD (p99s.length / 2 - 1) 0 = a at ha
    generalize (p99s.insertionSort (· ≤ ·)).getD (p99s.length / 2) 0 = b at hb
    have hsum : (a + b).toNat = a.toNat + b.toNat := by
      rw [UInt64.toNat_add]
      omega
    have hcast : (value a + value b) / 2 = ((a.toNat + b.toNat : Nat) : ℚ) / (2 : Nat) := by
      unfold value
      push_cast
      rfl
    rw [UInt64.toNat_div, hsum, hcast, Nat.floor_div_eq_div]
    rfl

theorem value_saturatingSub {a b : UInt64} (h : value b ≤ value a)
    : value (saturatingSub a b) = value a - value b := by
  unfold value at h ⊢
  rw [Nat.cast_le] at h
  unfold saturatingSub
  rw [if_pos (UInt64.le_iff_toNat_le.mpr h), UInt64.toNat_sub_of_le _ _ (UInt64.le_iff_toNat_le.mpr h),
    Nat.cast_sub h]

theorem value_iqr {p99s : List UInt64} (h : 4 ≤ p99s.length)
    : value (iqr (p99s.insertionSort (· ≤ ·))) = Stats.spread (values p99s) := by
  have hle : (Stats.sort (values p99s)).getD (p99s.length / 4) 0
      ≤ (Stats.sort (values p99s)).getD (3 * p99s.length / 4) 0 := by
    apply Stats.getD_sort_le
    . omega
    . rw [length_values]
      omega
  unfold iqr Stats.spread
  simp only [sort_values, getD_values, length_values, List.length_insertionSort] at hle ⊢
  rw [if_neg (Nat.not_lt_of_le h), value_saturatingSub hle]

theorem iqr_of_lt {sorted : List UInt64} (h : sorted.length < 4) : iqr sorted = 0 := by
  unfold iqr
  apply if_pos h

theorem toNat_iqr_lt {p99s : List UInt64} (hbound : ∀ v ∈ p99s, v.toNat < 2 ^ 53)
    : (iqr (p99s.insertionSort (· ≤ ·))).toNat < 2 ^ 53 := by
  have hlt := getD_lt hbound
  unfold iqr saturatingSub
  dsimp only
  split
  . decide
  . split
    . next hle =>
      rw [UInt64.toNat_sub_of_le _ _ hle]
      have := hlt (3 * (p99s.insertionSort (· ≤ ·)).length / 4)
      omega
    . decide

theorem value_max_one (n : UInt64) : value (max n 1) = ((max n.toNat 1 : Nat) : ℚ) := by
  change value (if n ≤ 1 then 1 else n) = _
  unfold value
  split
  . next h =>
    have hle : n.toNat ≤ 1 := UInt64.le_iff_toNat_le.mp h
    rw [Nat.max_eq_right hle]
    rfl
  . next h =>
    rw [UInt64.not_le] at h
    have hlt : 1 < n.toNat := UInt64.lt_iff_toNat_lt.mp h
    rw [Nat.max_eq_left (Nat.le_of_lt hlt)]

/--
Against a whole number, a median rounded down is as good as the median.
-/
theorem le_max_floor_iff {n : Nat} {m : ℚ} (h : 0 ≤ m) : n ≤ max ⌊m⌋₊ 1 ↔ (n : ℚ) ≤ max m 1 := by
  rw [le_max_iff, le_max_iff, Nat.le_floor_iff h, Nat.cast_le_one]

theorem median_values_nonneg (p99s : List UInt64) : 0 ≤ Stats.median (values p99s) := by
  apply Stats.median_nonneg
  intro a ha
  rcases List.mem_map.mp ha with ⟨v, -, rfl⟩
  apply Nat.cast_nonneg

theorem stable_iff {p99s : List UInt64} (hbound : ∀ v ∈ p99s, v.toNat < 2 ^ 53)
    : asF64 (iqr (p99s.insertionSort (· ≤ ·)))
          ≤ 0.25 * asF64 (max (median (p99s.insertionSort (· ≤ ·))) 1)
        ↔
      4 * value (iqr (p99s.insertionSort (· ≤ ·))) ≤ max (Stats.median (values p99s)) 1 := by
  have hnonneg := median_values_nonneg p99s
  have hlt : Stats.median (values p99s) < (2 ^ 53 : Nat) := by
    apply Stats.median_lt
    . intro a ha
      rcases List.mem_map.mp ha with ⟨v, hv, rfl⟩
      apply Nat.cast_lt.mpr (hbound v hv)
    . norm_num
  have hmax : (max (median (p99s.insertionSort (· ≤ ·))) 1).toNat < 2 ^ 53 := by
    have hvalue := value_max_one (median (p99s.insertionSort (· ≤ ·)))
    unfold value at hvalue
    rw [Nat.cast_inj, toNat_median hbound] at hvalue
    rw [hvalue, max_lt_iff]
    exact ⟨(Nat.floor_lt hnonneg).mpr hlt, by norm_num⟩
  rw [asF64_eq (toNat_iqr_lt hbound), asF64_eq hmax, value_max_one, toNat_median hbound]
  have hcast := le_max_floor_iff (n := 4 * (iqr (p99s.insertionSort (· ≤ ·))).toNat) hnonneg
  rw [← Nat.cast_le (α := ℚ)] at hcast
  unfold value
  push_cast at hcast ⊢
  rw [← hcast]
  constructor
  . intro h
    linarith
  . intro h
    linarith

theorem passes_iff {p99s : List UInt64} (hbound : ∀ v ∈ p99s, v.toNat < 2 ^ 53)
    : (runRate p99s).passesSubUs = true
        ↔
      Stats.median (values p99s) < 1000
        ∧
      (4 ≤ p99s.length →
        4 * Stats.spread (values p99s) ≤ max (Stats.median (values p99s)) 1) := by
  have hmedian : median (p99s.insertionSort (· ≤ ·)) < 1000 ↔ Stats.median (values p99s) < 1000 := by
    rw [UInt64.lt_iff_toNat_lt, toNat_median hbound]
    apply Nat.floor_lt (median_values_nonneg p99s)
  unfold runRate
  simp only [Bool.and_eq_true, decide_eq_true_eq, stable_iff hbound, hmedian]
  apply and_congr_right
  intro _
  by_cases h : 4 ≤ p99s.length
  . simp only [h, forall_const, value_iqr h]
  . rw [iqr_of_lt (by rw [List.length_insertionSort]; omega)]
    simp [h, value]

/--
What a PASS claims: at least one trial, a median below a microsecond and quartiles within a quarter
of it, whatever the order of the trials.
-/
structure Sound (p99s : List UInt64) : Prop where
  passes : (runRate p99s).passesSubUs = true →
    1 ≤ p99s.length ∧ Stats.median (values p99s) < 1000
      ∧ 4 * Stats.spread (values p99s) ≤ max (Stats.median (values p99s)) 1
  order : ∀ p99s', p99s.Perm p99s' → (runRate p99s').passesSubUs = (runRate p99s).passesSubUs

theorem spread_values_le_iff {p99s : List UInt64} (h : p99s.length = 2 ∨ p99s.length = 3) (c : ℚ)
    : 4 * Stats.spread (values p99s) ≤ c
        ↔
      ∀ a ∈ p99s, ∀ b ∈ p99s, 4 * (value a - value b) ≤ c := by
  have hscale : ∀ x : ℚ, 4 * x ≤ c ↔ x ≤ c / 4 := by
    intro x
    rw [le_div_iff₀' (by norm_num)]
  rw [← length_values] at h
  simp only [hscale]
  rw [Stats.spread_le_iff h]
  simp only [values, List.forall_mem_map]

/--
The verdict is not sound if no trial has run, or two or three that are far apart.
-/
theorem runRate_sound_iff {p99s : List UInt64} (hbound : ∀ v ∈ p99s, v.toNat < 2 ^ 53)
    : Sound p99s
        ↔
      1 ≤ p99s.length
        ∧
      (p99s.length = 2 ∨ p99s.length = 3 → Stats.median (values p99s) < 1000 →
        ∀ a ∈ p99s, ∀ b ∈ p99s,
          4 * (value a - value b) ≤ max (Stats.median (values p99s)) 1) := by
  constructor
  . intro sound
    have hpos : 1 ≤ p99s.length := by
      by_contra hzero
      have hnil : p99s = [] := List.length_eq_zero_iff.mp (by omega)
      subst hnil
      apply hzero (sound.passes (by decide +kernel)).1
    refine ⟨hpos, ?_⟩
    intro hlength hmedian
    have hpasses := (passes_iff hbound).mpr ⟨hmedian, fun h => by omega⟩
    rw [← spread_values_le_iff hlength]
    exact (sound.passes hpasses).2.2
  . rintro ⟨hpos, hspread⟩
    refine ⟨?_, fun p99s' h => runRate_passes_of_perm h⟩
    intro hpasses
    rcases (passes_iff hbound).mp hpasses with ⟨hmedian, hquartiles⟩
    refine ⟨hpos, hmedian, ?_⟩
    rcases Nat.lt_or_ge p99s.length 4 with hlt | hge
    . by_cases hone : p99s.length = 1
      . -- the quartiles of one value are that value
        unfold Stats.spread
        simp [length_values, hone]
      . have hlength : p99s.length = 2 ∨ p99s.length = 3 := by omega
        rw [spread_values_le_iff hlength]
        exact hspread hlength hmedian
    . apply hquartiles hge

theorem runRate_sound_iff_four : Sound [800, 810, 820, 830] := by
  apply (runRate_sound_iff (by simp)).mpr
  refine ⟨by decide, ?_⟩
  intro hlength
  simp at hlength

/--
`CADENCE_TRIALS=0` passes.
-/
theorem runRate_not_sound : ¬ ∀ p99s : List UInt64, (∀ v ∈ p99s, v.toNat < 2 ^ 53) → Sound p99s := by
  intro h
  have hpos := ((h [] (by simp)).passes (by decide +kernel)).1
  simp at hpos

example : (runRate [1, 1001]).passesSubUs = true := by decide +kernel

end TailBench
end Bench
