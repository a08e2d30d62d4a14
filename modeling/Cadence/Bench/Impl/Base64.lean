import Cadence.Persist.Impl.Writer

/-!
This module contains the two copies of the base64 encoder of the benchmark programs. They differ only
in that each declares a table of its own.
-/

namespace Bench

/--
The index `(n & 0x3F) as usize` into a table.
-/
def index (n : UInt32) : Fin 64 :=
  ⟨(n &&& 0x3F).toNat, by
    rw [UInt32.toNat_and]
    apply Nat.lt_succ_of_le Nat.and_le_right⟩

/--
One round of the loop. A chunk is never empty.
-/
def pushChunk (table : Vector Char 64) (out : String) (chunk : List UInt8) : String :=
  let b0 : UInt32 := (chunk.headD 0).toUInt32
  let b1 : UInt32 := (chunk[1]?.getD 0).toUInt32
  let b2 : UInt32 := (chunk[2]?.getD 0).toUInt32
  let n : UInt32 := (b0 <<< 16) ||| (b1 <<< 8) ||| b2
  let out := out.push (table.get (index (n >>> 18)))
  let out := out.push (table.get (index (n >>> 12)))
  let out := out.push (if 1 < chunk.length then table.get (index (n >>> 6)) else '=')
  out.push (if 2 < chunk.length then table.get (index n) else '=')

def base64EncodeWith (table : Vector Char 64) (input : List UInt8) : String :=
  (Persist.chunks 3 (Nat.succ_pos 2) input).foldl (pushChunk table) ""

theorem size_table :
    "ABCDEFGHIJKLMNOPQRSTUVWXYZabcdefghijklmnopqrstuvwxyz0123456789+/".toList.toArray.size = 64 :=
  rfl

namespace Main

def table : Vector Char 64 :=
  ⟨"ABCDEFGHIJKLMNOPQRSTUVWXYZabcdefghijklmnopqrstuvwxyz0123456789+/".toList.toArray, size_table⟩

def base64Encode (input : List UInt8) : String :=
  base64EncodeWith table input

end Main

namespace TailBench

def table : Vector Char 64 :=
  ⟨"ABCDEFGHIJKLMNOPQRSTUVWXYZabcdefghijklmnopqrstuvwxyz0123456789+/".toList.toArray, size_table⟩

def base64Encode (input : List UInt8) : String :=
  base64EncodeWith table input

end TailBench
end Bench
