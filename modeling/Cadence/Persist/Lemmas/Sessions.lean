import Cadence.Persist.Lemmas.History

/-!
This module contains the log file over several sessions, each with a new writer.
-/

open File

namespace Persist
namespace Session

def msgs (session : Session) : List Message :=
  session.calls.flatMap Prod.fst

def NoFailure (session : Session) : Prop :=
  ∀ call ∈ session.calls, call.2.NoFailure

/--
The session starts behind `log`, and it appends to it: it has a `StdWriter`, or it writes nothing, or
`log` is empty and all that it writes is transferred in full.
-/
def Appends (session : Session) (log : List UInt8) : Prop :=
  session.kind.isStd = true
    ∨
  session.msgs = []
    ∨
  log = [] ∧ Transfer.Complete (session.calls.flatMap session.kind.transfers)

instance (session : Session) (log : List UInt8) : Decidable (session.Appends log) :=
  inferInstanceAs (Decidable (_ ∨ _ ∨ _))

theorem run_eq (file : File) {session : Session} (h : session.NoFailure)
    : session.run file = session.kind.wrote 0 file session.calls := by
  have history := (history_of_noFailure session.kind file h).2
  rw [← history.file_eq]
  apply history.ready.drop _ session.dropWrites

theorem length_wrote_le (session : Session) (file : File)
    : (session.kind.wrote 0 file session.calls).length
        ≤
      file.length + (Message.encode session.msgs).length := by
  unfold Kind.wrote msgs
  cases hkind : session.kind.isStd with
  | true => rw [if_pos rfl, List.length_append]
  | false =>
    have hle := Transfer.length_pwriteAll_layOut_le file 0
      (session.calls.flatMap session.kind.transfers)
    rw [Kind.payload_flatMap_transfers hkind] at hle
    rw [if_neg (by simp)]
    omega

theorem wrote_uring_length {session : Session} {file log : List UInt8}
    (hkind : session.kind.isStd = false) (hmsgs : session.msgs ≠ [])
    (hlength : file.length ≤ log.length)
    (h : session.kind.wrote 0 file session.calls = log ++ Message.encode session.msgs)
    : log = [] := by
  have hle := Transfer.length_pwriteAll_layOut_le file 0
    (session.calls.flatMap session.kind.transfers)
  have hpos := List.length_pos_iff.mpr hmsgs
  unfold Kind.wrote at h
  rw [if_neg (by simp [hkind])] at h
  rw [h, Kind.payload_flatMap_transfers hkind] at hle
  unfold msgs at hle hpos
  rw [List.length_append, Message.length_encode] at hle
  apply List.length_eq_zero_iff.mp
  omega

theorem wrote_eq_append_iff {session : Session} {file log : List UInt8}
    (hlength : file.length ≤ log.length)
    : session.kind.wrote 0 file session.calls = log ++ Message.encode session.msgs
        ↔
      file = log ∧ session.Appends log := by
  unfold Appends
  cases hkind : session.kind.isStd with
  | true =>
    unfold Kind.wrote msgs
    rw [if_pos hkind, List.append_cancel_right_eq]
    simp
  | false =>
    by_cases hmsgs : session.msgs = []
    . have hnil := Kind.transfers_eq_nil hkind hmsgs
      unfold Kind.wrote
      rw [if_neg (by simp [hkind]), hnil, hmsgs]
      change file = log ++ [] ↔ _
      simp
    . constructor
      . intro h
        have hlog := wrote_uring_length hkind hmsgs hlength h
        subst hlog
        have hfile : file = [] := List.length_eq_zero_iff.mp (Nat.le_zero.mp hlength)
        subst hfile
        exact ⟨rfl, .inr (.inr ⟨rfl, (Kind.wrote_nil_eq_encode_iff _ _).mp h⟩)⟩
      . rintro ⟨rfl, h | h | ⟨rfl, h⟩⟩
        . contradiction
        . contradiction
        . exact (Kind.wrote_nil_eq_encode_iff _ _).mpr h

end Session

def AppendOnly (log : List UInt8) : List Session → Prop
  | [] => True
  | session :: sessions =>
    session.Appends log ∧ AppendOnly (log ++ Message.encode session.msgs) sessions

theorem foldl_run_eq_append_iff {sessions : List Session} {file log : List UInt8}
    (h : ∀ session ∈ sessions, session.NoFailure) (hlength : file.length ≤ log.length)
    : sessions.foldl Session.run file = log ++ Message.encode (sessions.flatMap Session.msgs)
        ↔
      file = log ∧ AppendOnly log sessions := by
  induction sessions generalizing file log with
  | nil =>
    unfold AppendOnly
    rw [and_true]
    change file = log ++ [] ↔ _
    rw [List.append_nil]
  | cons session sessions ih =>
    have hrun := session.run_eq file (h session List.mem_cons_self)
    have hle := session.length_wrote_le file
    rw [List.foldl_cons, List.flatMap_cons, Message.encode_append, ← List.append_assoc, hrun,
      ih (fun session' hsession' => h session' (List.mem_cons_of_mem _ hsession'))
        (by rw [List.length_append]; omega),
      Session.wrote_eq_append_iff hlength, and_assoc]
    rfl

/--
Append-only across sessions: whatever the writers, and exactly if the sessions with an io_uring
writer find an empty log or write nothing.
-/
theorem sessions_append_iff (file : File) (sessions : List Session)
    (h : ∀ session ∈ sessions, session.NoFailure)
    : sessions.foldl Session.run file = file ++ Message.encode (sessions.flatMap Session.msgs)
        ↔
      AppendOnly file sessions := by
  rw [foldl_run_eq_append_iff h (Nat.le_refl _), eq_self_iff_true, true_and]

def oneBatch (kind : Kind) (msg : Message) : Session :=
  ⟨kind, [([msg], ⟨[], []⟩)], []⟩

theorem noFailure_oneBatch (kind : Kind) (msg : Message) : (oneBatch kind msg).NoFailure := by
  intro call hcall
  rw [List.mem_singleton.mp hcall]
  simp [Env.NoFailure, Smooth]

/--
A session with an io_uring writer on a new log, then one with a `StdWriter`.
-/
theorem sessions_append_iff_uring_std
    : [oneBatch (.uring 1 (by decide)) (.new "a" []), oneBatch (.std stdBufCap) (.new "b" [])].foldl
          Session.run []
        =
      [] ++ Message.encode [.new "a" [], .new "b" []] := by
  refine (sessions_append_iff [] _ ?_).mpr ?_
  . intro session hsession
    rcases List.mem_pair.mp hsession with rfl | rfl
    . apply noFailure_oneBatch
    . apply noFailure_oneBatch
  . refine ⟨.inr (.inr ⟨rfl, ?_⟩), .inl rfl, trivial⟩
    decide +kernel

/--
A session with an io_uring writer overwrites the record of an earlier session.
-/
theorem sessions_not_append
    : ¬ ∀ (msgs : List Message) (sessions : List Session),
        (∀ session ∈ sessions, session.NoFailure) →
        sessions.foldl Session.run (Message.encode msgs)
          = Message.encode msgs ++ Message.encode (sessions.flatMap Session.msgs) := by
  intro h
  have happend := h [.new "a" []] [oneBatch (.uring 1 (by decide)) (.new "b" [])] (by
    intro session hsession
    rw [List.mem_singleton.mp hsession]
    apply noFailure_oneBatch)
  have hlength := congrArg List.length happend
  revert hlength
  decide +kernel

end Persist
