import Mathlib.Data.List.Basic

/-!
This module contains the bytes of a string and the facts about UTF-8 that a codec with fixed-size
text fields rests on.
-/

namespace String

def asBytes (s : String) : List UInt8 :=
  s.toByteArray.data.toList

@[simp]
theorem toByteArray_asBytes (s : String) : s.asBytes.toByteArray = s.toByteArray := by
  apply ByteArray.ext
  simp [asBytes]

theorem asBytes_inj {s t : String} : s.asBytes = t.asBytes ↔ s = t := by
  rw [← List.toByteArray_inj, toByteArray_asBytes, toByteArray_asBytes, String.toByteArray_inj]

theorem asBytes_append (s t : String) : (s ++ t).asBytes = s.asBytes ++ t.asBytes := by
  unfold asBytes
  rw [String.toByteArray_append]
  simp

theorem asBytes_ofList (cs : List Char) : (String.ofList cs).asBytes = cs.flatMap utf8EncodeChar := by
  unfold asBytes
  rw [String.toByteArray_ofList, List.utf8Encode, List.toList_data_toByteArray]

theorem asBytes_eq_flatMap (s : String) : s.asBytes = s.toList.flatMap utf8EncodeChar := by
  rw [← asBytes_ofList, String.ofList_toList]

theorem ofNat_ne_zero {n : Nat} (h : 0 < n) (hlt : n < 256) : (0 : UInt8) ≠ UInt8.ofNat n := by
  intro heq
  have := congrArg UInt8.toNat heq
  rw [UInt8.toNat_ofNat', UInt8.toNat_zero] at this
  omega

theorem zero_notMem_utf8EncodeChar {c : Char} (h : c ≠ '\x00') : 0 ∉ utf8EncodeChar c := by
  have hpos : 0 < c.val.toNat := by
    apply Nat.pos_of_ne_zero
    intro hzero
    apply h
    apply Char.ext
    apply UInt32.toNat_inj.mp
    exact hzero
  unfold utf8EncodeChar
  generalize c.val.toNat = v at hpos
  dsimp only
  split
  . simp (disch := omega) only [List.mem_singleton, ofNat_ne_zero, not_false_eq_true]
  . split
    . simp (disch := omega) only [List.mem_cons, List.not_mem_nil, ofNat_ne_zero, or_self,
        not_false_eq_true]
    . split <;>
        simp (disch := omega) only [List.mem_cons, List.not_mem_nil, ofNat_ne_zero, or_self,
          not_false_eq_true]

theorem zero_notMem_asBytes {s : String} (h : '\x00' ∉ s.toList) : 0 ∉ s.asBytes := by
  rw [asBytes_eq_flatMap, List.mem_flatMap]
  rintro ⟨c, hc, hzero⟩
  apply zero_notMem_utf8EncodeChar (fun heq => h (heq ▸ hc)) hzero

theorem zero_mem_asBytes {s : String} (h : '\x00' ∈ s.toList) : 0 ∈ s.asBytes := by
  rw [asBytes_eq_flatMap, List.mem_flatMap]
  refine ⟨'\x00', h, ?_⟩
  decide

theorem length_utf8EncodeChar_pos (c : Char) : 0 < (utf8EncodeChar c).length := by
  rw [length_utf8EncodeChar]
  apply c.utf8Size_pos

theorem fromUTF8?_eq_some_iff {bytes : List UInt8} {s : String}
    : String.fromUTF8? bytes.toByteArray = some s ↔ s.asBytes = bytes := by
  unfold String.fromUTF8?
  rw [← List.toByteArray_inj, toByteArray_asBytes]
  split
  . next h => rw [Option.some.injEq, ← String.toByteArray_inj]; exact eq_comm
  . next h =>
    constructor
    . intro hs
      contradiction
    . intro hs
      exact absurd (hs ▸ s.isValidUTF8) h

/--
UTF-8 is self-synchronising: what follows the encoding of some characters is itself an encoding.
-/
theorem isValidUTF8_of_utf8Encode_append (cs : List Char) {rest : ByteArray}
    (h : (cs.utf8Encode ++ rest).IsValidUTF8) : rest.IsValidUTF8 := by
  induction cs with
  | nil => simpa using h
  | cons c cs ih =>
    rw [← List.singleton_append, List.utf8Encode_append, ByteArray.append_assoc] at h
    exact ih (ByteArray.isValidUTF8_utf8Encode_singleton_append_iff.mp h)

theorem asBytes_prefix_iff {s t : String} : s.asBytes <+: t.asBytes ↔ ∃ r, t = s ++ r := by
  constructor
  . rintro ⟨rest, hrest⟩
    have hbytes : s.toList.utf8Encode ++ rest.toByteArray = t.toByteArray := by
      rw [← toByteArray_asBytes t, ← hrest, List.toByteArray_append, toByteArray_asBytes,
        ← String.toByteArray_ofList, String.ofList_toList]
    have hvalid := isValidUTF8_of_utf8Encode_append s.toList (hbytes ▸ t.isValidUTF8)
    refine ⟨String.ofByteArray rest.toByteArray hvalid, ?_⟩
    rw [← String.toByteArray_inj, String.toByteArray_append, ← hbytes, ← String.toByteArray_ofList,
      String.ofList_toList]
  . rintro ⟨r, rfl⟩
    rw [asBytes_append]
    apply List.prefix_append

theorem asBytes_getD_fromUTF8? (bytes : List UInt8)
    : ((String.fromUTF8? bytes.toByteArray).getD "").asBytes <+: bytes := by
  cases h : String.fromUTF8? bytes.toByteArray with
  | none => apply List.nil_prefix
  | some s =>
    have hbytes : s.asBytes = bytes := fromUTF8?_eq_some_iff.mp h
    subst hbytes
    apply List.prefix_rfl

def IsCharBoundary (t : String) (n : Nat) : Prop :=
  ∃ s r, t = s ++ r ∧ s.asBytes.length = n

theorem fromUTF8?_take_of_isCharBoundary {t : String} {n : Nat} (h : t.IsCharBoundary n)
    : ∃ s r, t = s ++ r ∧ s.asBytes.length = n
        ∧ String.fromUTF8? (t.asBytes.take n).toByteArray = some s := by
  rcases h with ⟨s, r, rfl, rfl⟩
  refine ⟨s, r, rfl, rfl, ?_⟩
  rw [fromUTF8?_eq_some_iff, asBytes_append, List.take_left]

theorem fromUTF8?_take_of_not_isCharBoundary {t : String} {n : Nat} (hle : n ≤ t.asBytes.length)
    (h : ¬ t.IsCharBoundary n) : String.fromUTF8? (t.asBytes.take n).toByteArray = none := by
  cases hs : String.fromUTF8? (t.asBytes.take n).toByteArray with
  | none => rfl
  | some s =>
    rw [fromUTF8?_eq_some_iff] at hs
    exfalso
    apply h
    rcases asBytes_prefix_iff.mp (hs ▸ List.take_prefix n t.asBytes) with ⟨r, hr⟩
    refine ⟨s, r, hr, ?_⟩
    rw [hs, List.length_take]
    omega

end String
