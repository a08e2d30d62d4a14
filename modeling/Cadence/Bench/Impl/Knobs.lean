import Mathlib.Algebra.Ring.Nat
import Mathlib.Data.List.DropRight

/-!
This module contains how the benchmark programs read their environment variables. A variable is
`none` if it is unset or not Unicode.
-/

namespace Bench

/--
`char::is_whitespace`.
-/
def isWhiteSpace (c : Char) : Bool :=
  decide (9 ≤ c.toNat ∧ c.toNat ≤ 13) ||
    [0x20, 0x85, 0xA0, 0x1680, 0x2028, 0x2029, 0x202F, 0x205F, 0x3000].contains c.toNat ||
    decide (0x2000 ≤ c.toNat ∧ c.toNat ≤ 0x200A)

def trim (s : List Char) : List Char :=
  (s.dropWhile isWhiteSpace).rdropWhile isWhiteSpace

/--
`checked_mul` and `checked_add`.
-/
def checked (n : Nat) : Option Nat :=
  if n < 2 ^ 64 then some n else none

def toDigit (c : Char) : Option Nat :=
  if c.isDigit then some (c.toNat - '0'.toNat) else none

def parseDigits : List Char → Nat → Option Nat
  | [], result => some result
  | c :: cs, result => do
    let digit ← toDigit c
    let result ← checked (10 * result)
    let result ← checked (result + digit)
    parseDigits cs result

/--
`str::parse` to an unsigned number of 64 bits.
-/
def parse : List Char → Option UInt64
  | [] => none
  | ['+'] => none
  | '+' :: cs => (parseDigits cs 0).map UInt64.ofNat
  | cs => (parseDigits cs 0).map UInt64.ofNat

/--
The knobs `CADENCE_TRIALS` and `CADENCE_MSGS`.
-/
def readCount (default : UInt64) (var : Option String) : UInt64 :=
  (var.bind fun s => parse s.toList).getD default

namespace PersistVerify

def msgs (var : Option String) : UInt64 :=
  readCount 200000 var

def trials (var : Option String) : UInt64 :=
  readCount 5 var

end PersistVerify

namespace TailBench

def defaultRates : List UInt64 := [10000, 100000, 1000000]

def rates (var : Option String) : List UInt64 :=
  let parsed := var.map fun s => (s.toList.splitOn ',').filterMap fun t => parse (trim t)
  (parsed.filter (· ≠ [])).getD defaultRates

end TailBench
end Bench
