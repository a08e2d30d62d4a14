import Cadence.Base64.Basic
import Cadence.Bench.Impl.Base64

/-!
This module contains that both copies of `base64_encode` compute the standard encoding.
-/

namespace Bench

open Base64

theorem index_eq (n : UInt32) : index n = Fin.ofNat 64 n.toNat := by
  apply Fin.ext
  change (n &&& 0x3F).toNat = n.toNat % 64
  rw [UInt32.toNat_and]
  apply Nat.and_two_pow_sub_one_eq_mod _ 6

theorem ofBe_three (a b c : UInt8)
    : ofBe [a, b, c] = (a.toNat * 256 + b.toNat) * 256 + c.toNat := by
  simp [ofBe, Bytes.ofLe]
  omega

/--
The three bytes of a chunk stand side by side in the word.
-/
theorem toNat_word (a b c : UInt8)
    : ((a.toUInt32 <<< 16) ||| (b.toUInt32 <<< 8) ||| c.toUInt32).toNat = ofBe [a, b, c] := by
  have ha := a.toNat_lt
  have hb := b.toNat_lt
  have hc := c.toNat_lt
  have hhigh : a.toNat <<< 16 ||| b.toNat <<< 8 = (a.toNat * 256 + b.toNat) <<< 8 := by
    rw [← Nat.shiftLeft_add_eq_or_of_lt (by rw [Nat.shiftLeft_eq]; omega)]
    simp only [Nat.shiftLeft_eq]
    omega
  have ha16 : a.toNat <<< 16 % 2 ^ 32 = a.toNat <<< 16 := by
    rw [Nat.shiftLeft_eq]
    omega
  have hb8 : b.toNat <<< 8 % 2 ^ 32 = b.toNat <<< 8 := by
    rw [Nat.shiftLeft_eq]
    omega
  calc ((a.toUInt32 <<< 16) ||| (b.toUInt32 <<< 8) ||| c.toUInt32).toNat
    _ = a.toNat <<< 16 % 2 ^ 32 ||| b.toNat <<< 8 % 2 ^ 32 ||| c.toNat := by
      simp only [UInt32.toNat_or, UInt32.toNat_shiftLeft, UInt8.toNat_toUInt32]
      rfl
    _ = (a.toNat * 256 + b.toNat) <<< 8 + c.toNat := by
      rw [ha16, hb8, hhigh, Nat.shiftLeft_add_eq_or_of_lt hc]
    _ = ofBe [a, b, c] := by
      rw [ofBe_three, Nat.shiftLeft_eq]

theorem toList_pushChunk (out : String) (chunk : List UInt8)
    : (pushChunk alphabet out chunk).toList
        =
      let n := ofBe [chunk.headD 0, chunk[1]?.getD 0, chunk[2]?.getD 0]
      out.toList ++ [symbol (Fin.ofNat 64 (n / 64 / 64 / 64)), symbol (Fin.ofNat 64 (n / 64 / 64)),
        if 1 < chunk.length then symbol (Fin.ofNat 64 (n / 64)) else '=',
        if 2 < chunk.length then symbol (Fin.ofNat 64 n) else '='] := by
  unfold pushChunk
  simp only [String.toList_push, index_eq, UInt32.toNat_shiftRight, Nat.shiftRight_eq_div_pow,
    toNat_word, List.append_assoc, List.cons_append, List.nil_append, Nat.div_div_eq_div_mul]
  rfl

theorem toList_pushChunk_one (out : String) (a : UInt8)
    : (pushChunk alphabet out [a]).toList = out.toList ++ encodeGroup 2 [a] := by
  have hdiv : ofBe [a, 0, 0] / 64 / 64 = ofBe [a] * 4 ^ 2 := by
    simp [ofBe, Bytes.ofLe]
    omega
  rw [toList_pushChunk]
  change out.toList ++ [symbol (Fin.ofNat 64 (ofBe [a, 0, 0] / 64 / 64 / 64)),
    symbol (Fin.ofNat 64 (ofBe [a, 0, 0] / 64 / 64)), '=', '='] = _
  rw [hdiv]
  rfl

theorem toList_pushChunk_two (out : String) (a b : UInt8)
    : (pushChunk alphabet out [a, b]).toList = out.toList ++ encodeGroup 1 [a, b] := by
  have hdiv : ofBe [a, b, 0] / 64 = ofBe [a, b] * 4 ^ 1 := by
    simp [ofBe, Bytes.ofLe]
    omega
  rw [toList_pushChunk]
  change out.toList ++ [symbol (Fin.ofNat 64 (ofBe [a, b, 0] / 64 / 64 / 64)),
    symbol (Fin.ofNat 64 (ofBe [a, b, 0] / 64 / 64)), symbol (Fin.ofNat 64 (ofBe [a, b, 0] / 64)),
    '='] = _
  rw [hdiv]
  rfl

theorem toList_pushChunk_three (out : String) (a b c : UInt8)
    : (pushChunk alphabet out [a, b, c]).toList = out.toList ++ encodeGroup 0 [a, b, c] := by
  unfold encodeGroup
  rw [toList_pushChunk, pow_zero, Nat.mul_one]
  rfl

theorem chunks_of_length_le {α : Type} {size : Nat} {hsize : 0 < size} {l : List α} (h : l ≠ [])
    (hle : l.length ≤ size) : Persist.chunks size hsize l = [l] := by
  rw [Persist.chunks, if_neg h, List.take_of_length_le hle, List.drop_of_length_le hle,
    Persist.chunks, if_pos rfl]

theorem toList_foldl_pushChunk (out : String) (input : List UInt8)
    : ((Persist.chunks 3 (Nat.succ_pos 2) input).foldl (pushChunk alphabet) out).toList
        =
      out.toList ++ encode input := by
  fun_induction encode input generalizing out with
  | case1 =>
    rw [Persist.chunks, if_pos rfl, List.append_nil]
    rfl
  | case2 a =>
    rw [chunks_of_length_le (List.cons_ne_nil _ _) (Nat.le_of_ble_eq_true rfl)]
    apply toList_pushChunk_one
  | case3 a b =>
    rw [chunks_of_length_le (List.cons_ne_nil _ _) (Nat.le_of_ble_eq_true rfl)]
    apply toList_pushChunk_two
  | case4 a b c rest ih =>
    rw [Persist.chunks, if_neg (List.cons_ne_nil _ _), List.foldl_cons, ← List.append_assoc,
      ← toList_pushChunk_three]
    apply ih

theorem toList_base64EncodeWith (input : List UInt8)
    : (base64EncodeWith alphabet input).toList = encode input :=
  toList_foldl_pushChunk "" input

theorem toList_mainBase64Encode (input : List UInt8)
    : (Main.base64Encode input).toList = encode input :=
  toList_base64EncodeWith input

theorem toList_tailBenchBase64Encode (input : List UInt8)
    : (TailBench.base64Encode input).toList = encode input :=
  toList_base64EncodeWith input

theorem base64Encode_standard
    : (∀ input, Main.base64Encode input = TailBench.base64Encode input)
        ∧
      (∀ input, Standard input (Main.base64Encode input).toList)
        ∧
      Function.Injective Main.base64Encode := by
  refine ⟨?_, ?_, ?_⟩
  . intro input
    rw [← String.toList_inj, toList_mainBase64Encode, toList_tailBenchBase64Encode]
  . intro input
    rw [toList_mainBase64Encode]
    apply encode_standard
  . intro input input' h
    apply encode_injective
    rw [← toList_mainBase64Encode, h, toList_mainBase64Encode]

example : Main.base64Encode "Man".asBytes = "TWFu" := by decide +kernel

end Bench
