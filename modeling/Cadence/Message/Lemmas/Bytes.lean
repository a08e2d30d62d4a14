import Cadence.Message.Basic

/-!
This module contains the record format: decoding inverts encoding, and the records of a log are found
at multiples of 64.
-/

namespace Message

theorem fromBytes_toBytes (m : Message) : fromBytes m.toBytes = m := by
  rcases m with ⟨timestampNs, topic, payload⟩
  have hlt : timestampNs.toNat < 256 ^ 8 := timestampNs.toNat_lt
  have hdrop : (Bytes.toLe 8 timestampNs.toNat).drop 40 = [] := by
    simp [List.drop_eq_nil_iff]
  simp [fromBytes, toBytes, Bytes.ofLe_toLe hlt, List.drop_append, hdrop, Vector.toArray_toList]

theorem toBytes_fromBytes (bytes : Vector UInt8 64) : (fromBytes bytes).toBytes = bytes := by
  have hlength : bytes.toList.length = 64 := bytes.length_toList
  have htake : (bytes.toList.take 8).length = 8 := by
    rw [List.length_take, hlength]
    rfl
  have hlt : Bytes.ofLe (bytes.toList.take 8) < 2 ^ 64 := by
    have := Bytes.ofLe_lt (bytes.toList.take 8)
    rwa [htake] at this
  have hle : Bytes.toLe 8 (Bytes.ofLe (bytes.toList.take 8)) = bytes.toList.take 8 := by
    have := Bytes.toLe_ofLe (bytes.toList.take 8)
    rwa [htake] at this
  -- the three fields are adjacent and cover the record
  have hsplit : bytes.toList.take 8 ++ (bytes.toList.drop 8).take 32 ++ bytes.toList.drop 40
      = bytes.toList := by
    have hdrop : bytes.toList.drop 40 = (bytes.toList.drop 8).drop 32 := by
      rw [List.drop_drop]
    rw [hdrop, List.append_assoc, List.take_append_drop, List.take_append_drop]
  have htoList : (fromBytes bytes).toBytes.toList
      = Bytes.toLe 8 (UInt64.ofNat (Bytes.ofLe (bytes.toList.take 8))).toNat
        ++ (bytes.toList.drop 8).take 32 ++ bytes.toList.drop 40 := rfl
  apply Vector.toList_inj.mp
  rw [htoList, UInt64.toNat_ofNat_of_lt' hlt, hle, hsplit]

@[simp]
theorem length_toBytes (m : Message) : m.toBytes.toList.length = 64 := by
  simp

@[simp]
theorem encode_nil : encode [] = [] := rfl

theorem encode_cons (m : Message) (msgs : List Message)
    : encode (m :: msgs) = m.toBytes.toList ++ encode msgs := by
  simp [encode]

theorem encode_append (msgs msgs' : List Message)
    : encode (msgs ++ msgs') = encode msgs ++ encode msgs' := by
  simp [encode]

theorem length_encode (msgs : List Message) : (encode msgs).length = 64 * msgs.length := by
  induction msgs with
  | nil => rfl
  | cons m msgs ih =>
    rw [encode_cons, List.length_append, length_toBytes, ih, List.length_cons]
    omega

/--
`from_bytes(chunk.try_into().unwrap())`, where `none` is the panic of `unwrap`.
-/
def fromChunk (chunk : List UInt8) : Option Message :=
  if h : chunk.length = 64 then
    some (fromBytes ⟨chunk.toArray, h⟩)
  else
    none

theorem fromChunk_toBytes (m : Message) : fromChunk m.toBytes.toList = some m := by
  unfold fromChunk
  rw [dif_pos m.length_toBytes]
  exact congrArg some m.fromBytes_toBytes

def decodeAt (log : List UInt8) (i : Nat) : Option Message :=
  fromChunk ((log.drop (64 * i)).take 64)

theorem drop_encode (msgs : List Message) (i : Nat)
    : (encode msgs).drop (64 * i) = encode (msgs.drop i) := by
  induction i generalizing msgs with
  | zero => rfl
  | succ i ih =>
    cases msgs with
    | nil => rfl
    | cons m msgs =>
      rw [encode_cons, List.drop_succ_cons, ← ih, Nat.mul_succ, Nat.add_comm, ← List.drop_drop]
      rw [List.drop_left' m.length_toBytes]

theorem decodeAt_encode (msgs : List Message) (i : Nat) : decodeAt (encode msgs) i = msgs[i]? := by
  unfold decodeAt
  rw [drop_encode]
  cases h : msgs.drop i with
  | nil =>
    have hlength := congrArg List.length h
    rw [List.length_drop, List.length_nil] at hlength
    rw [List.getElem?_eq_none (by omega)]
    rfl
  | cons m rest =>
    have hget : msgs[i]? = some m := by
      rw [← List.head?_drop, h]
      rfl
    rw [encode_cons, List.take_left' m.length_toBytes, fromChunk_toBytes, hget]

end Message
