import Cadence.Persist.Lemmas.Chunks

/-!
This module contains the two io_uring writers as writers of chunks.
-/

open File

namespace Persist

theorem mapIdx_offset_cons {β : Type} (f : Nat → Message → β) (offset : Nat) (m : Message)
    (chunk : List Message)
    : (m :: chunk).mapIdx (fun i m => f (offset + i * 64) m)
        =
      f offset m :: chunk.mapIdx fun i m => f (offset + 64 + i * 64) m := by
  rw [List.mapIdx_cons]
  have hshift : ∀ i, offset + (i + 1) * 64 = offset + 64 + i * 64 := by
    intro i
    omega
  simp only [hshift, Nat.zero_mul, Nat.add_zero]

theorem queues_sqes (mem : Memory) (offset : Nat) (chunk : List Message)
    : Queues mem offset (UringWriter.sqes offset chunk) (chunk.map fun m => m.toBytes.toList) := by
  unfold UringWriter.sqes
  induction chunk generalizing offset with
  | nil => trivial
  | cons m chunk ih =>
    rw [mapIdx_offset_cons (fun offset m => (⟨offset, 64, .owned m.toBytes.toList⟩ : Sqe)),
      List.map_cons]
    refine ⟨⟨rfl, m.length_toBytes.symm, ?_⟩, ?_⟩
    . apply List.take_of_length_le
      apply m.length_toBytes.le
    . rw [m.length_toBytes]
      exact ih (offset + 64)

theorem flatten_map_toBytes (chunk : List Message)
    : (chunk.map fun m => m.toBytes.toList).flatten = Message.encode chunk := by
  unfold Message.encode
  rw [List.flatMap_def]

theorem length_sqes (offset : Nat) (chunk : List Message)
    : (UringWriter.sqes offset chunk).length = chunk.length := by
  unfold UringWriter.sqes
  rw [List.length_mapIdx]

def uringChunks (ringDepth : Nat) : ChunkWriter UringWriter where
  writeChunk := UringWriter.writeChunk
  ops := UringWriter.sqes
  units := fun chunk => chunk.map fun m => m.toBytes.toList
  Fits := fun chunk => chunk.length ≤ ringDepth
  Ready := fun offset w => w.ring = .new ∧ w.offset = offset ∧ w.ringDepth = ringDepth
  flatten_units := flatten_map_toBytes
  units_ne_nil := by
    intro chunk _ data hdata hnil
    rcases List.mem_map.mp hdata with ⟨m, -, rfl⟩
    have := m.length_toBytes
    rw [hnil] at this
    contradiction
  length_ops := by
    intro offset chunk
    rw [length_sqes, List.length_map]
  round := by
    rintro env w file chunk offset ⟨hring, rfl, rfl⟩ hfits hsubmit
    have hround := Ring.round_all ⟨[], env.freed⟩ file hsubmit
      ((length_sqes w.offset chunk).trans_le (hfits.trans w.depth_le))
      (queues_sqes _ w.offset chunk)
    rw [length_sqes] at hround
    unfold UringWriter.writeChunk
    dsimp only
    rw [hring, hround]
    have hrest := drain_snd_of_none (completions env (UringWriter.sqes w.offset chunk))
    generalize drain (completions env (UringWriter.sqes w.offset chunk)) = drained at hrest
    rcases drained with ⟨_ | errno, rest⟩
    . refine ⟨_, rfl, ?_, fun h => absurd rfl h⟩
      intro _
      rw [hrest rfl]
      exact ⟨rfl, by rw [Nat.mul_comm], rfl⟩
    . refine ⟨_, rfl, fun h => by contradiction, ?_⟩
      intro _ hnil
      rw [show rest = [] from hnil]
      exact ⟨rfl, rfl, rfl⟩
  round_fails := by
    rintro env w file chunk offset errno ⟨hring, rfl, rfl⟩ hfits hsubmit
    have hround := Ring.round_fails ⟨[], env.freed⟩ chunk.length file hsubmit
      ((length_sqes w.offset chunk).trans_le (hfits.trans w.depth_le))
    unfold UringWriter.writeChunk
    dsimp only
    rw [hring]
    generalize Ring.round _ _ _ _ _ _ = result at hround
    rcases result with ⟨⟨ring, file'⟩, result⟩
    dsimp only at hround
    rw [hround]

theorem mapIdx_eq_layOut (offset : Nat) (chunk : List Message)
    : chunk.mapIdx (fun i m => (offset + i * 64, m.toBytes.toList))
        =
      Transfer.layOut offset (chunk.map fun m => ⟨m.toBytes.toList, 64⟩) := by
  induction chunk generalizing offset with
  | nil => rfl
  | cons m chunk ih =>
    rw [mapIdx_offset_cons (fun offset m => (offset, m.toBytes.toList)), ih, List.map_cons,
      Transfer.layOut, m.length_toBytes]
    congr 2
    unfold Transfer.done
    rw [List.take_of_length_le m.length_toBytes.le]

theorem take_pack {buf : List UInt8} (chunk : List Message)
    : (pack buf chunk).take (64 * chunk.length) = Message.encode chunk := by
  -- the stale tail of the buffer is behind the records, so it is cut off
  have hwrites := mapIdx_eq_layOut 0 chunk
  simp only [Nat.zero_add] at hwrites
  unfold pack
  rw [hwrites, Transfer.pwriteAll_layOut_of_full]
  . have hpayload : Transfer.payload (chunk.map fun m => ⟨m.toBytes.toList, 64⟩)
        = Message.encode chunk := by
      unfold Transfer.payload Message.encode
      rw [List.flatMap_map]
    rw [hpayload, take_pwrite_zero (Message.length_encode chunk)]
  . intro t ht
    rcases List.mem_map.mp ht with ⟨m, -, rfl⟩
    apply m.length_toBytes.le

theorem len_eq {chunk : List Message} {capMsgs : Nat} (hfits : chunk.length ≤ capMsgs)
    (hcap : capMsgs * 64 ≤ 2 ^ 30) : UringFixedWriter.len chunk = 64 * chunk.length := by
  unfold UringFixedWriter.len
  rw [Nat.mod_eq_of_lt (by omega), Nat.mul_comm]

def fixedChunks (capMsgs : Nat) : ChunkWriter UringFixedWriter where
  writeChunk := UringFixedWriter.writeChunk
  ops := fun offset chunk => [⟨offset, UringFixedWriter.len chunk, .registered⟩]
  units := fun chunk => [Message.encode chunk]
  Fits := fun chunk => chunk.length ≤ capMsgs
  Ready := fun offset w => w.ring = .new ∧ w.offset = offset ∧ w.capMsgs = capMsgs
  flatten_units := fun chunk => List.append_nil _
  units_ne_nil := by
    intro chunk hne data hdata hnil
    rw [List.mem_singleton.mp hdata, ← List.length_eq_zero_iff, Message.length_encode] at hnil
    have := List.length_pos_iff.mpr hne
    omega
  length_ops := fun _ _ => rfl
  round := by
    rintro env w file chunk offset ⟨hring, rfl, rfl⟩ hfits hsubmit
    have hlen := len_eq hfits w.buf_le
    have hbuf := w.buf_length
    have hqueues : Queues ⟨pack w.buf chunk, env.freed⟩ w.offset
        [⟨w.offset, UringFixedWriter.len chunk, .registered⟩] [Message.encode chunk] := by
      refine ⟨⟨rfl, ?_, ?_⟩, trivial⟩
      . rw [hlen, Message.length_encode]
      . dsimp only
        rw [hlen]
        apply take_pack chunk
    have hround : Ring.round 8 _ _ 1 env _ = _ := Ring.round_all _ file hsubmit (by simp) hqueues
    unfold UringFixedWriter.writeChunk
    dsimp only
    rw [dif_pos (by omega), hring]
    rw [hround]
    have hrest := drain_snd_of_none
      (completions env [⟨w.offset, UringFixedWriter.len chunk, .registered⟩])
    generalize drain (completions env _) = drained at hrest
    rcases drained with ⟨_ | errno, rest⟩
    . refine ⟨_, rfl, ?_, fun h => absurd rfl h⟩
      intro _
      rw [hrest rfl]
      exact ⟨rfl, by rw [hlen], rfl⟩
    . refine ⟨_, rfl, fun h => by contradiction, ?_⟩
      intro _ hnil
      rw [show rest = [] from hnil]
      exact ⟨rfl, rfl, rfl⟩
  round_fails := by
    rintro env w file chunk offset errno ⟨hring, rfl, rfl⟩ hfits hsubmit
    have hbuf := w.buf_length
    have hlength : [(⟨w.offset, UringFixedWriter.len chunk, .registered⟩ : Sqe)].length ≤ 8 := by
      simp
    have hround := Ring.round_fails ⟨pack w.buf chunk, env.freed⟩ 1 file hsubmit hlength
    unfold UringFixedWriter.writeChunk
    dsimp only
    rw [dif_pos (by omega), hring]
    generalize Ring.round _ _ _ _ _ _ = result at hround
    rcases result with ⟨⟨ring, file'⟩, result⟩
    dsimp only at hround
    rw [hround]

end Persist
