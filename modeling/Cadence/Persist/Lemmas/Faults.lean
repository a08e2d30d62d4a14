import Cadence.Persist.Lemmas.Sessions
import Cadence.Persist.Lemmas.StdCalls

/-!
This module contains the log file over several sessions of a `StdWriter` in which batches may fail.
What a failed batch leaves in the buffer is written by a later batch, or when the writer is dropped.
-/

open Lts

namespace Persist

/--
The batches of a sequence of calls with what they return.
-/
def results (state : Writer × File) : List Call → List (List Message × Outcome)
  | [] => []
  | call :: calls =>
    let (state, outcome) := Writer.writeBatch state call.1 call.2
    (call.1, outcome) :: results state calls

namespace Session

def results (session : Session) (file : File) : List (List Message × Outcome) :=
  Persist.results (.create session.kind, file) session.calls

theorem run_eq_drop (session : Session) (file : File)
    : session.run file
        =
      Writer.drop (writeBatches (.create session.kind, file) session.calls) session.dropWrites := rfl

end Session

theorem run_writeBatches (initial : File) (w : StdWriter) (hcapacity : w.capacity = stdBufCap)
    (file : File) (calls : List Call)
    : ∃ w' file' acts es,
        writeBatches (.std w, file) calls = (.std w', file')
          ∧
        (stdSteps initial).run ⟨w.buf, file, [], .idle⟩ acts = some (⟨w'.buf, file', [], .idle⟩, es)
          ∧
        batches es = results (.std w, file) calls := by
  induction calls generalizing w file with
  | nil => exact ⟨w, file, [], [], rfl, rfl, rfl⟩
  | cons call calls ih =>
    rcases run_writeBatch initial w hcapacity file [] call.1 call.2.writes with ⟨acts, hrun⟩
    have hcapacity' := (w.writeBatch_capacity file call.1 call.2.writes).trans hcapacity
    rcases ih (w.writeBatch file call.1 call.2.writes).1.1 hcapacity'
      (w.writeBatch file call.1 call.2.writes).1.2 with ⟨w', file', acts', es, hbatches, hrun', hes⟩
    refine ⟨w', file', acts ++ acts', _, hbatches, System.run_append _ hrun hrun', ?_⟩
    rw [batches_append, hes]
    rfl

theorem StdWriter.drop_of_smooth (w : StdWriter) (file : File) {replies : List Reply}
    (h : Smooth replies) : w.drop file replies = file ++ w.buf := by
  have hflush := w.flushBuf_file file replies
  rw [w.flushBuf_buf file replies (w.flushBuf_smooth file h).1, List.append_nil] at hflush
  apply hflush

theorem Session.run_of_faults (old : List Message) {session : Session}
    (hkind : session.kind = .std stdBufCap) (hdrop : Smooth session.dropWrites)
    : ∃ kept : List (List Message),
        List.Forall₂ Kept (session.results (Message.encode old)) kept
          ∧
        session.run (Message.encode old) = Message.encode (old ++ kept.flatten) := by
  rcases run_writeBatches (Message.encode old) (.create stdBufCap) rfl (Message.encode old)
    session.calls with ⟨w', file', acts, es, hbatches, hrun, hes⟩
  rcases stdSteps_inv hrun with ⟨kept, current, inv⟩
  have hcurrent : current = [] := by
    have hprogress := inv.progress
    apply (List.append_eq_nil_iff.mp hprogress.symm).1
  subst hcurrent
  refine ⟨kept, ?_, ?_⟩
  . have hrecords := inv.records
    rw [hes] at hrecords
    unfold Session.results
    rw [hkind]
    apply hrecords
  . rcases inv.bytes with ⟨added, hfile, hencode⟩
    rw [List.append_nil] at hencode
    have hfile : file' = Message.encode old ++ added := hfile
    have hencode : added ++ w'.buf = Message.encode kept.flatten := hencode
    rw [Session.run_eq_drop, hkind]
    unfold Writer.create
    dsimp only
    rw [hbatches]
    unfold Writer.drop
    dsimp only
    rw [w'.drop_of_smooth file' hdrop, hfile, List.append_assoc, hencode, Message.encode_append]

/--
The batches of a sequence of sessions with what they return.
-/
def history (file : File) : List Session → List (List Message × Outcome)
  | [] => []
  | session :: sessions => session.results file ++ history (session.run file) sessions

/--
Sessions of a `StdWriter` under any faults leave a log of whole records, as long as the operating
system does not refuse what is written when a writer is dropped: behind the earlier log come all of
every batch that returned `Ok` and the first messages of every other batch, in order.
-/
theorem sessions_keep_records (old : List Message) (sessions : List Session)
    (hkind : ∀ session ∈ sessions, session.kind = .std stdBufCap)
    (hdrop : ∀ session ∈ sessions, Smooth session.dropWrites)
    : ∃ kept : List (List Message),
        List.Forall₂ Kept (history (Message.encode old) sessions) kept
          ∧
        sessions.foldl Session.run (Message.encode old) = Message.encode (old ++ kept.flatten) := by
  induction sessions generalizing old with
  | nil => exact ⟨[], .nil, by simp⟩
  | cons session sessions ih =>
    rw [List.forall_mem_cons] at hkind hdrop
    rcases Session.run_of_faults old hkind.1 hdrop.1 with ⟨kept, hrecords, hrun⟩
    rcases ih (old ++ kept.flatten) hkind.2 hdrop.2 with ⟨kept', hrecords', hrun'⟩
    refine ⟨kept ++ kept', ?_, ?_⟩
    . unfold history
      rw [hrun]
      exact List.rel_append hrecords hrecords'
    . rw [List.foldl_cons, hrun, hrun', List.flatten_append, List.append_assoc]

/--
A batch that the operating system refuses after seven bytes, and what it does when the writer is
dropped.
-/
def refusedBatch (msg : Message) (dropWrites : List Reply) : Session :=
  ⟨.std stdBufCap, [([msg], ⟨[.transferred 7, .failed ⟨5, by decide⟩], []⟩)], dropWrites⟩

theorem sessions_keep_records_refused
    : ∃ kept : List (List Message),
        List.Forall₂ Kept
            (history (Message.encode [])
              [refusedBatch (.new "a" []) [.transferred 50], oneBatch (.std stdBufCap) (.new "b" [])])
            kept
          ∧
        [refusedBatch (.new "a" []) [.transferred 50], oneBatch (.std stdBufCap) (.new "b" [])].foldl
            Session.run (Message.encode [])
          = Message.encode ([] ++ kept.flatten) := by
  apply sessions_keep_records
  . simp [refusedBatch, oneBatch]
  . simp [refusedBatch, oneBatch, Smooth]

/--
If the operating system still refuses when the writer is dropped, then the records of later sessions
are not where a reader looks for them.
-/
example
    : let file := [refusedBatch (.new "a" []) [.failed ⟨5, by decide⟩],
        oneBatch (.std stdBufCap) (.new "b" [])].foldl Session.run []
      file.length = 71 ∧ Message.decodeAt file 0 ≠ some (.new "b" [])
        ∧ Message.decodeAt file 1 = none := by
  decide +kernel

end Persist
