import Cadence.Message.Lemmas.Bytes
import Cadence.Persist.Lemmas.StdSteps

/-!
This module contains what a reader finds in the log of a `StdWriter` after a crash: the first records
that were written, all those among them that had to be kept, and behind them at most a torn record.
-/

open Lts

namespace Message

/--
A reader of a log that ends anywhere finds the records that are whole.
-/
theorem decodeAt_of_isPrefix {content : List UInt8} {msgs : List Message}
    (h : content <+: encode msgs) (i : Nat)
    : decodeAt content i = (msgs.take (content.length / 64))[i]? := by
  rw [List.getElem?_take]
  split
  next hi =>
    have hfits : 64 * i + 64 ≤ content.length := by omega
    have hchunk : (content.drop (64 * i)).take 64 = ((encode msgs).drop (64 * i)).take 64 := by
      rcases h with ⟨rest, hrest⟩
      rw [← hrest, List.drop_append_of_le_length (by omega), List.take_append_of_le_length]
      rw [List.length_drop]
      omega
    rw [← decodeAt_encode]
    unfold decodeAt
    rw [hchunk]
  next hi =>
    unfold decodeAt fromChunk
    rw [dif_neg]
    rw [List.length_take, List.length_drop]
    omega

theorem isPrefix_take_of_encode {content : List UInt8} {msgs msgs' : List Message}
    (hmsgs : msgs' <+: msgs) (h : encode msgs' <+: content)
    : msgs' <+: msgs.take (content.length / 64) := by
  have hlength := h.length_le
  rw [length_encode] at hlength
  rw [List.prefix_take_iff]
  exact ⟨hmsgs, by omega⟩

end Message

namespace Persist

/--
What a crash can leave of the file: what has been synced, and of the bytes since then the first ones.
The death of the process alone leaves all of them.
-/
structure StdState.Leaves (s : StdState) (content : File) : Prop where
  synced : s.synced <+: content
  written : content <+: s.file

variable {s : StdState} {es : List StdOutput} {kept : List (List Message)} {old current : List Message}

theorem StdInv.file_isPrefix (inv : StdInv (Message.encode old) s es kept current)
    : s.file <+: Message.encode (old ++ kept.flatten ++ current) := by
  rcases inv.bytes with ⟨added, hfile, hencode⟩
  refine ⟨s.unwritten, ?_⟩
  rw [hfile, List.append_assoc, hencode, ← Message.encode_append, List.append_assoc]

/--
The records `recovered` that a reader finds after a crash. The batches are those given to
`write_batch` in `acts`, `kept` is what the log keeps of those that have returned, `current` of the
one in progress.
-/
structure Recovery (old : List Message) (acts : List StdAct) (s : StdState) (es : List StdOutput)
    (kept : List (List Message)) (current recovered : List Message) (content : File) : Prop where
  calls : acts.filterMap StdAct.batch? = (batches es).map Prod.fst ++ s.pc.called
  records : List.Forall₂ Kept (batches es) kept
  progress : current <+: s.pc.batch
  read : ∀ i, Message.decodeAt content i = recovered[i]?
  order : recovered <+: old ++ kept.flatten ++ current
  torn : content.length < 64 * recovered.length + 64
  acknowledged : content = s.file → ∀ k msgs n, (batches es)[k]? = some (msgs, Outcome.ok n) →
    old ++ (kept.take (k + 1)).flatten <+: recovered
  synced : ∀ before after m past, acts = before ++ .sync none :: after →
    (stdSteps (Message.encode old)).Reaches before m past →
    ∀ k msgs n, (batches past)[k]? = some (msgs, Outcome.ok n) →
      old ++ (kept.take (k + 1)).flatten <+: recovered

theorem StdInv.recovery {acts : List StdAct} (inv : StdInv (Message.encode old) s es kept current)
    (hreach : (stdSteps (Message.encode old)).Reaches acts s es) {content : File}
    (leaves : s.Leaves content)
    : Recovery old acts s es kept current
        ((old ++ kept.flatten ++ current).take (content.length / 64)) content := by
  have keeps := inv.keepsRecords hreach
  have hcontent := leaves.written.trans inv.file_isPrefix
  have hfirst (k : Nat) : old ++ (kept.take (k + 1)).flatten <+: old ++ kept.flatten ++ current := by
    rw [List.append_assoc, List.prefix_append_right_inj]
    exact (List.take_prefix _ _).flatten.trans (List.prefix_append _ _)
  have hkeep {k : Nat} (h : Message.encode old ++ Message.encode (kept.take (k + 1)).flatten <+: content)
      : old ++ (kept.take (k + 1)).flatten
          <+:
        (old ++ kept.flatten ++ current).take (content.length / 64) := by
    rw [← Message.encode_append] at h
    exact Message.isPrefix_take_of_encode (hfirst k) h
  exact {
    calls := keeps.calls
    records := keeps.records
    progress := ⟨s.pc.rest, keeps.progress.symm⟩
    read := Message.decodeAt_of_isPrefix hcontent
    order := List.take_prefix _ _
    torn := by
      have hlength := hcontent.length_le
      rw [Message.length_encode] at hlength
      rw [List.length_take, Nat.min_eq_left (by omega)]
      omega
    acknowledged := by
      rintro rfl k msgs n hk
      exact hkeep (keeps.written k msgs n hk)
    synced := by
      intro before after m past hacts hpast k msgs n hk
      exact hkeep ((keeps.synced before after m past hacts hpast k msgs n hk).trans leaves.synced)
  }

/--
A log of `StdWriter` can be read after a crash at any moment, under any faults of the operating
system before it: the reader finds the first of the records that the batches hold, in order, and
misses none that had been acknowledged, unless the machine went down before the next `sync`.
-/
theorem std_recovers {acts : List StdAct}
    (hreach : (stdSteps (Message.encode old)).Reaches acts s es) {content : File}
    (leaves : s.Leaves content)
    : ∃ kept current recovered, Recovery old acts s es kept current recovered content := by
  rcases stdSteps_inv hreach with ⟨kept, current, inv⟩
  exact ⟨kept, current, _, inv.recovery hreach leaves⟩

/--
The first batch is written and synced, the second has got as far as the middle of its first record.
-/
def crashRun : List StdAct :=
  [.writeBatch [.new "a" []], .run, .run, .reply (.transferred 64), .run, .sync none,
    .writeBatch [.new "b" [], .new "c" []], .run, .run, .run, .reply (.transferred 70)]

/--
The machine goes down with one record synced, the next one torn, and the last one in the buffer.
-/
theorem std_recovers_torn
    : ∃ s es,
        (stdSteps (Message.encode [])).Reaches crashRun s es
          ∧
        batches es = [([.new "a" []], .ok 1)]
          ∧
        s.synced = Message.encode [.new "a" []]
          ∧
        (s.file.take 100).length = 100
          ∧
        ∃ kept current recovered,
          Recovery [] crashRun s es kept current recovered (s.file.take 100) := by
  have hreach := (stdSteps (Message.encode [])).reaches_get crashRun (by decide +kernel)
  exact ⟨_, _, hreach, by decide +kernel, by decide +kernel, by decide +kernel,
    std_recovers hreach ⟨by decide +kernel, by decide +kernel⟩⟩

end Persist
