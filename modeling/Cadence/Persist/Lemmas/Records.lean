import Cadence.Persist.Impl.Writer
import Cadence.Persist.Lemmas.Chunks

/-!
This module contains the record format as a bijection, for one record and for a log that is cut into
records.
-/

open Function

namespace Persist

theorem chunks_nil {α : Type} {size : Nat} (hsize : 0 < size)
    : chunks size hsize ([] : List α) = [] := by
  rw [chunks, if_pos rfl]

theorem chunks_of_ne_nil {α : Type} {size : Nat} (hsize : 0 < size) {l : List α} (h : l ≠ [])
    : chunks size hsize l = l.take size :: chunks size hsize (l.drop size) := by
  rw [chunks, if_neg h]

theorem chunks_encode (msgs : List Message)
    : chunks 64 (by decide) (Message.encode msgs) = msgs.map fun m => m.toBytes.toList := by
  induction msgs with
  | nil => rw [Message.encode_nil, chunks_nil, List.map_nil]
  | cons m msgs ih =>
    have hlength := m.length_toBytes
    have hne : Message.encode (m :: msgs) ≠ [] := by
      apply List.ne_nil_of_length_pos
      rw [Message.length_encode, List.length_cons]
      omega
    rw [chunks_of_ne_nil _ hne, Message.encode_cons, List.take_left' hlength,
      List.drop_left' hlength, ih, List.map_cons]

def decode (log : List UInt8) : List (Option Message) :=
  (chunks 64 (by decide) log).map Message.fromChunk

theorem decode_encode (msgs : List Message) : decode (Message.encode msgs) = msgs.map some := by
  unfold decode
  rw [chunks_encode, List.map_map]
  apply List.map_congr_left
  intro m hm
  exact m.fromChunk_toBytes

theorem encode_injective : Injective Message.encode := by
  intro msgs msgs' h
  have hdecode := congrArg decode h
  rw [decode_encode, decode_encode] at hdecode
  exact List.map_injective_iff.mpr (Option.some_injective Message) hdecode

theorem records_bijective
    : (∀ m : Message, Message.fromBytes m.toBytes = m)
        ∧
      (∀ bytes : Vector UInt8 64, (Message.fromBytes bytes).toBytes = bytes)
        ∧
      (∀ msgs : List Message, decode (Message.encode msgs) = msgs.map some)
        ∧
      (∀ msgs msgs' : List Message, Message.encode msgs = Message.encode msgs' → msgs = msgs') :=
  ⟨Message.fromBytes_toBytes, Message.toBytes_fromBytes, decode_encode,
    fun _ _ h => encode_injective h⟩

end Persist
