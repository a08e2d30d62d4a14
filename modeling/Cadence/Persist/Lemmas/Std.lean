import Cadence.Persist.Impl.Writer

/-!
This module contains what the buffered writer keeps: what has reached the file followed by what is in
the buffer.
-/

namespace Persist

theorem writeLoop_file (file : File) (data : List UInt8) (replies : List Reply)
    : (writeLoop file data replies).1 ++ (writeLoop file data replies).2.1 = file ++ data := by
  fun_induction writeLoop file data replies with
  | case1 file data => simp
  | case2 => simp
  | case3 => rfl
  | case4 file data replies hdata n hn ih =>
    rw [ih, List.append_assoc, List.take_append_drop]
  | case5 file data replies hdata errno hintr ih => exact ih
  | case6 => rfl

theorem writeLoop_rest (file : File) (data : List UInt8) (replies : List Reply)
    (h : (writeLoop file data replies).2.2.2 = none) : (writeLoop file data replies).2.1 = [] := by
  fun_induction writeLoop file data replies with
  | case1 => rfl
  | case2 => rfl
  | case3 => contradiction
  | case4 file data replies hdata n hn ih => exact ih h
  | case5 file data replies hdata errno hintr ih => exact ih h
  | case6 => contradiction

theorem writeLoop_nil (file : File) (replies : List Reply)
    : writeLoop file [] replies = (file, [], replies, none) := by
  cases replies with
  | nil =>
    unfold writeLoop
    rw [List.append_nil]
  | cons reply replies => rfl

def Smooth (replies : List Reply) : Prop :=
  ∀ reply ∈ replies, ∃ n, reply = .transferred n ∧ 0 < n

theorem writeLoop_smooth {replies : List Reply} (file : File) (data : List UInt8)
    (h : Smooth replies)
    : (writeLoop file data replies).2.2.2 = none
        ∧
      Smooth (writeLoop file data replies).2.2.1 := by
  fun_induction writeLoop file data replies with
  | case1 => exact ⟨rfl, h⟩
  | case2 => exact ⟨rfl, h⟩
  | case3 =>
    rcases h _ List.mem_cons_self with ⟨n, hreply, hn⟩
    cases hreply
    contradiction
  | case4 file data replies hdata n hn ih =>
    exact ih fun reply hreply => h reply (List.mem_cons_of_mem _ hreply)
  | case5 =>
    rcases h _ List.mem_cons_self with ⟨n, hreply, hn⟩
    contradiction
  | case6 =>
    rcases h _ List.mem_cons_self with ⟨n, hreply, hn⟩
    contradiction

namespace StdWriter

variable {w : StdWriter} {file : File} {replies : List Reply}

theorem flushBuf_file (w : StdWriter) (file : File) (replies : List Reply)
    : (w.flushBuf file replies).2.1 ++ (w.flushBuf file replies).1.buf = file ++ w.buf :=
  writeLoop_file file w.buf replies

theorem flushBuf_buf (w : StdWriter) (file : File) (replies : List Reply)
    (h : (w.flushBuf file replies).2.2.2 = none)
    : (w.flushBuf file replies).1.buf = [] :=
  writeLoop_rest file w.buf replies h

theorem flushBuf_smooth (w : StdWriter) (file : File) (h : Smooth replies)
    : (w.flushBuf file replies).2.2.2 = none ∧ Smooth (w.flushBuf file replies).2.2.1 :=
  writeLoop_smooth file w.buf h

theorem makeRoom_file (w : StdWriter) (file : File) (data : List UInt8) (replies : List Reply)
    : (w.makeRoom file data replies).2.1 ++ (w.makeRoom file data replies).1.buf
        =
      file ++ w.buf := by
  unfold makeRoom
  split
  . apply flushBuf_file
  . rfl

theorem makeRoom_capacity (w : StdWriter) (file : File) (data : List UInt8) (replies : List Reply)
    : (w.makeRoom file data replies).1.capacity = w.capacity := by
  unfold makeRoom
  split <;> rfl

theorem makeRoom_buf (w : StdWriter) (file : File) (replies : List Reply) {data : List UInt8}
    (hdata : data ≠ []) (hle : w.capacity ≤ data.length)
    (h : (w.makeRoom file data replies).2.2.2 = none)
    : (w.makeRoom file data replies).1.buf = [] := by
  have hpos := List.length_pos_iff.mpr hdata
  unfold makeRoom at h ⊢
  split
  . next hspare =>
    rw [if_pos hspare] at h
    apply flushBuf_buf w file replies h
  . -- no flush was needed for as much as the whole capacity, so the buffer was empty
    apply List.length_eq_zero_iff.mp
    dsimp only
    omega

theorem makeRoom_smooth (w : StdWriter) (file : File) (data : List UInt8) (h : Smooth replies)
    : (w.makeRoom file data replies).2.2.2 = none
        ∧
      Smooth (w.makeRoom file data replies).2.2.1 := by
  unfold makeRoom
  split
  . apply flushBuf_smooth w file h
  . exact ⟨rfl, h⟩

theorem writeAll_file (w : StdWriter) (file : File) (replies : List Reply) {data : List UInt8}
    (hdata : data ≠ [])
    (h : (w.writeAll file data replies).2.2.2 = none)
    : (w.writeAll file data replies).2.1 ++ (w.writeAll file data replies).1.buf
        =
      file ++ w.buf ++ data := by
  unfold writeAll at h ⊢
  split
  . rw [← List.append_assoc]
  . next hfast =>
    rw [if_neg hfast] at h
    unfold writeAllCold at h ⊢
    have hfile := makeRoom_file w file data replies
    have hcapacity := makeRoom_capacity w file data replies
    have hbuf := makeRoom_buf w file replies hdata
    generalize w.makeRoom file data replies = room at h hfile hcapacity hbuf
    rcases room with ⟨w', file', replies', _ | error⟩
    . dsimp only at h hfile hcapacity hbuf ⊢
      split
      . next hdirect =>
        rw [if_pos hdirect] at h
        have hloop := writeLoop_file file' data replies'
        have hrest := writeLoop_rest file' data replies' h
        rw [hrest, List.append_nil] at hloop
        rw [hcapacity] at hdirect
        rw [hbuf hdirect rfl, List.append_nil] at hfile ⊢
        rw [hloop, hfile]
      . rw [← hfile, List.append_assoc]
    . contradiction

theorem writeAll_capacity (w : StdWriter) (file : File) (data : List UInt8) (replies : List Reply)
    : (w.writeAll file data replies).1.capacity = w.capacity := by
  unfold writeAll
  split
  . rfl
  . unfold writeAllCold
    have hcapacity := makeRoom_capacity w file data replies
    generalize w.makeRoom file data replies = room at hcapacity
    rcases room with ⟨w', file', replies', _ | error⟩
    . dsimp only at hcapacity ⊢
      split
      . exact hcapacity
      . exact hcapacity
    . exact hcapacity

theorem writeAll_smooth (w : StdWriter) (file : File) (data : List UInt8) (h : Smooth replies)
    : (w.writeAll file data replies).2.2.2 = none
        ∧
      Smooth (w.writeAll file data replies).2.2.1 := by
  unfold writeAll
  split
  . exact ⟨rfl, h⟩
  . unfold writeAllCold
    have hroom := makeRoom_smooth w file data h
    generalize w.makeRoom file data replies = room at hroom
    rcases room with ⟨w', file', replies', _ | error⟩
    . dsimp only
      split
      . apply writeLoop_smooth file' data hroom.2
      . exact hroom
    . exact absurd hroom.1 (by simp)

theorem writeMsgs_file (w : StdWriter) (file : File) (replies : List Reply) (msgs : List Message)
    (h : (w.writeMsgs file msgs replies).2.2.2 = none)
    : (w.writeMsgs file msgs replies).2.1 ++ (w.writeMsgs file msgs replies).1.buf
        =
      file ++ w.buf ++ Message.encode msgs := by
  induction msgs generalizing w file replies with
  | nil => exact (List.append_nil _).symm
  | cons msg msgs ih =>
    have hmsg : msg.toBytes.toList ≠ [] := by
      intro hnil
      have := msg.length_toBytes
      rw [hnil] at this
      contradiction
    have hfile := writeAll_file w file replies hmsg
    unfold writeMsgs at h ⊢
    generalize w.writeAll file msg.toBytes.toList replies = result at h hfile
    rcases result with ⟨w', file', replies', _ | error⟩
    . dsimp only at h hfile ⊢
      rw [ih _ _ _ h, hfile rfl, Message.encode_cons, List.append_assoc _ msg.toBytes.toList]
    . contradiction

theorem writeMsgs_capacity (w : StdWriter) (file : File) (msgs : List Message)
    (replies : List Reply) : (w.writeMsgs file msgs replies).1.capacity = w.capacity := by
  induction msgs generalizing w file replies with
  | nil => rfl
  | cons msg msgs ih =>
    have hcapacity := w.writeAll_capacity file msg.toBytes.toList replies
    unfold writeMsgs
    generalize w.writeAll file msg.toBytes.toList replies = result at hcapacity
    rcases result with ⟨w', file', replies', _ | error⟩
    . exact (ih w' file' replies').trans hcapacity
    . exact hcapacity

theorem writeMsgs_smooth (w : StdWriter) (file : File) (msgs : List Message) (h : Smooth replies)
    : (w.writeMsgs file msgs replies).2.2.2 = none
        ∧
      Smooth (w.writeMsgs file msgs replies).2.2.1 := by
  induction msgs generalizing w file replies with
  | nil => exact ⟨rfl, h⟩
  | cons msg msgs ih =>
    have hmsg := writeAll_smooth w file msg.toBytes.toList h
    unfold writeMsgs
    generalize w.writeAll file msg.toBytes.toList replies = result at hmsg
    rcases result with ⟨w', file', replies', _ | error⟩
    . exact ih w' file' hmsg.2
    . exact absurd hmsg.1 (by simp)

theorem writeBatch_capacity (w : StdWriter) (file : File) (msgs : List Message)
    (replies : List Reply) : (w.writeBatch file msgs replies).1.1.capacity = w.capacity := by
  have hmsgs := w.writeMsgs_capacity file msgs replies
  unfold writeBatch
  generalize w.writeMsgs file msgs replies = result at hmsgs
  rcases result with ⟨w', file', replies', _ | error⟩
  . have hflush : (w'.flushBuf file' replies').1.capacity = w'.capacity := rfl
    dsimp only at hmsgs ⊢
    generalize w'.flushBuf file' replies' = flushed at hflush
    rcases flushed with ⟨w'', file'', replies'', _ | error⟩
    . exact hflush.trans hmsgs
    . exact hflush.trans hmsgs
  . exact hmsgs

theorem writeBatch_ok {msgs : List Message} {n : Nat}
    (h : (w.writeBatch file msgs replies).2 = .ok n)
    : n = msgs.length
        ∧
      (w.writeBatch file msgs replies).1.1.buf = []
        ∧
      (w.writeBatch file msgs replies).1.2 = file ++ w.buf ++ Message.encode msgs := by
  have hmsgs := writeMsgs_file w file replies msgs
  unfold writeBatch at h ⊢
  generalize w.writeMsgs file msgs replies = result at h hmsgs
  rcases result with ⟨w', file', replies', _ | error⟩
  . dsimp only at h hmsgs ⊢
    have hflush := flushBuf_file w' file' replies'
    have hbuf := flushBuf_buf w' file' replies'
    generalize w'.flushBuf file' replies' = flushed at h hflush hbuf
    rcases flushed with ⟨w'', file'', replies'', _ | error⟩
    . dsimp only at h hflush hbuf ⊢
      rw [hbuf rfl, List.append_nil] at hflush
      refine ⟨?_, hbuf rfl, ?_⟩
      . simpa using h.symm
      . rw [hflush, hmsgs rfl]
    . contradiction
  . contradiction

theorem writeAll_err (w : StdWriter) (file : File) (replies : List Reply) {data : List UInt8}
    (hdata : data.length < w.capacity) {error : IoError}
    (h : (w.writeAll file data replies).2.2.2 = some error)
    : (w.writeAll file data replies).2.1 ++ (w.writeAll file data replies).1.buf = file ++ w.buf := by
  unfold writeAll at h ⊢
  split
  . next hfast =>
    rw [if_pos hfast] at h
    contradiction
  . next hfast =>
    rw [if_neg hfast] at h
    unfold writeAllCold at h ⊢
    have hfile := makeRoom_file w file data replies
    have hcapacity := makeRoom_capacity w file data replies
    generalize w.makeRoom file data replies = room at h hfile hcapacity
    rcases room with ⟨w', file', replies', _ | error'⟩
    . -- the buffer is not bypassed, so only a flush can fail
      dsimp only at h hcapacity
      rw [if_neg (by omega)] at h
      contradiction
    . exact hfile

/--
The messages of a batch that are put into the buffer, up to the first one for which no room can be
made.
-/
def appended (w : StdWriter) (file : File) : List Message → List Reply → List Message
  | [], _ => []
  | msg :: msgs, replies =>
    match w.writeAll file msg.toBytes.toList replies with
    | (w, file, replies, none) => msg :: w.appended file msgs replies
    | (_, _, _, some _) => []

theorem appended_prefix (w : StdWriter) (file : File) (msgs : List Message) (replies : List Reply)
    : w.appended file msgs replies <+: msgs := by
  induction msgs generalizing w file replies with
  | nil => apply List.prefix_refl
  | cons msg msgs ih =>
    unfold appended
    generalize w.writeAll file msg.toBytes.toList replies = result
    rcases result with ⟨w', file', replies', _ | error⟩
    . exact (List.prefix_cons_inj msg).mpr (ih w' file' replies')
    . apply List.nil_prefix

theorem appended_ne_nil (file : File) (replies : List Reply) {msgs : List Message}
    (hcapacity : 64 < w.capacity) (hbuf : w.buf = []) (hmsgs : msgs ≠ [])
    : w.appended file msgs replies ≠ [] := by
  cases msgs with
  | nil => contradiction
  | cons msg msgs =>
    have hlength := msg.length_toBytes
    unfold appended writeAll
    rw [if_pos (by rw [hbuf, List.length_nil]; omega)]
    apply List.cons_ne_nil

/--
What `write_all` refuses is not in the buffer, and what it takes is there or in the file.
-/
theorem writeMsgs_appended (w : StdWriter) (file : File) (replies : List Reply) (msgs : List Message)
    (hcapacity : 64 < w.capacity)
    : (w.writeMsgs file msgs replies).2.1 ++ (w.writeMsgs file msgs replies).1.buf
        =
      file ++ w.buf ++ Message.encode (w.appended file msgs replies) := by
  induction msgs generalizing w file replies with
  | nil => exact (List.append_nil _).symm
  | cons msg msgs ih =>
    have hlength := msg.length_toBytes
    have hne : msg.toBytes.toList ≠ [] := List.ne_nil_of_length_pos (by omega)
    have hfile := writeAll_file w file replies hne
    have herr : ∀ error, (w.writeAll file msg.toBytes.toList replies).2.2.2 = some error →
        (w.writeAll file msg.toBytes.toList replies).2.1
          ++ (w.writeAll file msg.toBytes.toList replies).1.buf = file ++ w.buf :=
      fun error h => writeAll_err w file replies (by omega) h
    have hcapacity' := w.writeAll_capacity file msg.toBytes.toList replies
    unfold writeMsgs appended
    generalize w.writeAll file msg.toBytes.toList replies = result at hfile herr hcapacity'
    rcases result with ⟨w', file', replies', _ | error⟩
    . dsimp only at hfile hcapacity' ⊢
      rw [ih w' file' replies' (by omega), hfile rfl, Message.encode_cons,
        List.append_assoc _ msg.toBytes.toList]
    . rw [Message.encode_nil, List.append_nil]
      exact herr error rfl

/--
A failing batch leaves what it has put into the buffer, and not nothing if the buffer was empty.
-/
theorem writeBatch_err {msgs : List Message} {error : IoError} (hcapacity : 64 < w.capacity)
    (h : (w.writeBatch file msgs replies).2 = .err error)
    : (w.writeBatch file msgs replies).1.2 ++ (w.writeBatch file msgs replies).1.1.buf
          = file ++ w.buf ++ Message.encode (w.appended file msgs replies)
        ∧
      (w.buf = [] → w.appended file msgs replies ≠ []) := by
  have hbytes := w.writeMsgs_appended file replies msgs hcapacity
  have hne : w.buf = [] → msgs ≠ [] := by
    rintro hbuf rfl
    -- there would have been nothing to flush
    unfold writeBatch writeMsgs flushBuf at h
    dsimp only at h
    rw [hbuf, writeLoop_nil] at h
    contradiction
  refine ⟨?_, fun hbuf => appended_ne_nil file replies hcapacity hbuf (hne hbuf)⟩
  unfold writeBatch at h ⊢
  generalize w.writeMsgs file msgs replies = result at h hbytes
  rcases result with ⟨w', file', replies', _ | error'⟩
  . have hflush := flushBuf_file w' file' replies'
    dsimp only at h hbytes ⊢
    rw [hbytes] at hflush
    generalize w'.flushBuf file' replies' = flushed at h hflush
    rcases flushed with ⟨w'', file'', replies'', _ | error''⟩
    . contradiction
    . exact hflush
  . exact hbytes

theorem writeBatch_smooth (w : StdWriter) (file : File) (msgs : List Message) (h : Smooth replies)
    : (w.writeBatch file msgs replies).2 = .ok msgs.length := by
  have hmsgs := writeMsgs_smooth w file msgs h
  unfold writeBatch
  generalize w.writeMsgs file msgs replies = result at hmsgs
  rcases result with ⟨w', file', replies', _ | error⟩
  . have hflush := flushBuf_smooth w' file' hmsgs.2
    dsimp only
    generalize w'.flushBuf file' replies' = flushed at hflush
    rcases flushed with ⟨w'', file'', replies'', _ | error⟩
    . rfl
    . exact absurd hflush.1 (by simp)
  . exact absurd hmsgs.1 (by simp)

end StdWriter
end Persist
