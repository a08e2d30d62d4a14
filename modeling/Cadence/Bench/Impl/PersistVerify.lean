import Mathlib.Data.List.Sort
import Mathlib.Data.Rat.Cast.Order

/-!
This module contains the disk-write benchmark: its table of cells, the two passes that fill it and
the verdict. The throughputs of the trials are its input, read as exact rationals.
-/

namespace Bench
namespace PersistVerify

def batchSizes : List Nat := [1, 8, 64, 512, 4096]

inductive Durability where
  | syncEnd
  | syncPerBatch
  deriving DecidableEq, Repr

def Durability.label : Durability → String
  | .syncEnd => "sync-end"
  | .syncPerBatch => "sync-per-batch"

inductive WriterKind where
  | stdBufWriter
  | ioUringWrite
  | ioUringWriteFixed
  deriving DecidableEq, Repr

def WriterKind.label : WriterKind → String
  | .stdBufWriter => "std-BufWriter"
  | .ioUringWrite => "io_uring-Write"
  | .ioUringWriteFixed => "io_uring-WriteFixed"

/--
The code compares the labels of cells.
-/
theorem label_injective
    : Function.Injective Durability.label ∧ Function.Injective WriterKind.label := by
  constructor
  . intro dur dur'
    cases dur <;> cases dur' <;> decide
  . intro kind kind'
    cases kind <;> cases kind' <;> decide

structure CellResult where
  writer : WriterKind
  batchSize : Nat
  durability : Durability
  trials : Nat
  throughputMbSPerTrial : List ℚ
  throughputMmsgSMedian : ℚ
  throughputMbSMedian : ℚ
  ratioVsStd : Option ℚ
  passes15x : Option Bool
  deriving DecidableEq

def medianF64 (xs : List ℚ) : ℚ :=
  if xs = [] then
    0
  else
    let v := xs.insertionSort (· ≤ ·)
    let n := v.length
    if n % 2 = 1 then v.getD (n / 2) 0 else (v.getD (n / 2 - 1) 0 + v.getD (n / 2) 0) / 2

def writerKinds (linux : Bool) : List WriterKind :=
  if linux then [.stdBufWriter, .ioUringWrite, .ioUringWriteFixed] else [.stdBufWriter]

/--
What `time_writer` returns for each trial of a cell, in Mmsg/s and in MB/s.
-/
abbrev Timings := WriterKind → Nat → Durability → List (ℚ × ℚ)

def runCell (timings : Timings) (kind : WriterKind) (batch : Nat) (dur : Durability) : CellResult :=
  let mmsg := (timings kind batch dur).map Prod.fst
  let mb := (timings kind batch dur).map Prod.snd
  { writer := kind
    batchSize := batch
    durability := dur
    trials := (timings kind batch dur).length
    throughputMbSPerTrial := mb
    throughputMmsgSMedian := medianF64 mmsg
    throughputMbSMedian := medianF64 mb
    ratioVsStd := none
    passes15x := none }

/--
One round of the loop over the writers, on `results` and `std_med`.
-/
def visitKind (timings : Timings) (batch : Nat) (dur : Durability)
    (acc : List CellResult × Option ℚ) (kind : WriterKind) : List CellResult × Option ℚ :=
  let r := runCell timings kind batch dur
  (acc.1 ++ [r], if kind = .stdBufWriter then some r.throughputMbSMedian else acc.2)

def fillRatio (base : ℚ) (batch : Nat) (r : CellResult) : CellResult :=
  let ratio := r.throughputMbSMedian / base
  { r with
    ratioVsStd := some ratio
    passes15x :=
      if r.writer = .ioUringWriteFixed then
        some (decide (1.5 ≤ ratio) && decide (64 ≤ batch))
      else
        r.passes15x }

def secondPass (base : ℚ) (batch : Nat) (dur : Durability) (results : List CellResult)
    : List CellResult :=
  results.map fun r => if r.batchSize = batch ∧ r.durability = dur then fillRatio base batch r else r

def runGroup (timings : Timings) (kinds : List WriterKind) (dur : Durability)
    (results : List CellResult) (batch : Nat) : List CellResult :=
  let (results, stdMed) := kinds.foldl (visitKind timings batch dur) (results, none)
  match stdMed.filter (0 < ·) with
  | some base => secondPass base batch dur results
  | none => results

def runAll (timings : Timings) (kinds : List WriterKind) : List CellResult :=
  [.syncEnd, .syncPerBatch].foldl
    (fun results dur => batchSizes.foldl (runGroup timings kinds dur) results) []

def proven (results : List CellResult) : Bool :=
  results.any fun r => r.passes15x = some true

def claimLine (results : List CellResult) : String :=
  "Claim D (WriteFixed ≥1.5× std at batch≥64): " ++
    if proven results then
      "PASS (see ratio_vs_std)"
    else
      "NOT met on this run — report honestly per BENCHMARKING.md §8"

/--
`main` up to the line that reports the claim.
-/
def main (linux : Bool) (timings : Timings) : List CellResult × String :=
  let results := runAll timings (writerKinds linux)
  (results, claimLine results)

end PersistVerify
end Bench
