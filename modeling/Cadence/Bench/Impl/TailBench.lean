import Mathlib.Data.List.Sort
import Mathlib.Data.Rat.Cast.Order

/-!
This module contains the statistics and the verdict of the tail-latency benchmark. The 99th
percentiles of the trials are its input.
-/

namespace Bench
namespace TailBench

def median (sorted : List UInt64) : UInt64 :=
  let n := sorted.length
  if n = 0 then
    0
  else if n % 2 = 1 then
    sorted.getD (n / 2) 0
  else
    (sorted.getD (n / 2 - 1) 0 + sorted.getD (n / 2) 0) / 2

def saturatingSub (a b : UInt64) : UInt64 :=
  if b ≤ a then a - b else 0

def iqr (sorted : List UInt64) : UInt64 :=
  let n := sorted.length
  if n < 4 then
    0
  else
    let q1 := sorted.getD (n / 4) 0
    let q3 := sorted.getD (3 * n / 4) 0
    saturatingSub q3 q1

/--
`n as f64`: from 2^53 on, the nearest of the multiples of `2 ^ e` that a significand of 53 bits can
tell apart, and of two nearest the even one.
-/
def asF64 (n : UInt64) : ℚ :=
  let e := n.toNat.log2 - 52
  let q := n.toNat / 2 ^ e
  let r := n.toNat % 2 ^ e
  let rounded := if 2 * r < 2 ^ e ∨ 2 * r = 2 ^ e ∧ q % 2 = 0 then q else q + 1
  ((rounded * 2 ^ e : Nat) : ℚ)

structure RateResult where
  trials : Nat
  p99NsPerTrial : List UInt64
  p99NsMedian : UInt64
  p99NsIqr : UInt64
  passesSubUs : Bool
  deriving DecidableEq

/--
`p99s` are the values that the trials of the loop push.
-/
def runRate (p99s : List UInt64) : RateResult :=
  let sorted := p99s.insertionSort (· ≤ ·)
  let p99Med := median sorted
  let iqrNs := iqr sorted
  let stable := decide (asF64 iqrNs ≤ 0.25 * asF64 (max p99Med 1))
  let passes := decide (p99Med < 1000) && stable
  { trials := p99s.length
    p99NsPerTrial := sorted
    p99NsMedian := p99Med
    p99NsIqr := iqrNs
    passesSubUs := passes }

end TailBench
end Bench
