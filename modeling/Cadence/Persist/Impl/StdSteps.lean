import Cadence.Persist.Impl.Writer

/-!
This module contains `StdWriter` one `write` system call at a time: every moment of a sequence of
calls of `write_batch` and `sync`, under any answers of the operating system.
-/

open Lts

namespace Persist

/--
Where the thread is inside `write_batch`. `rest` are the messages still to be appended, and
`written` says how much of the buffer the `flush_buf` in progress has written. The flush makes room
for the first message of `rest`, or is the final one.
-/
inductive StdPc where
  | idle
  | writing (msgs rest : List Message)
  | flushing (msgs rest : List Message) (written : Nat)
  deriving DecidableEq

/--
`synced` is the content of the file at the last `sync_data` that succeeded.
-/
structure StdState where
  buf : List UInt8
  file : File
  synced : File
  pc : StdPc
  deriving DecidableEq

/--
`run` is a step of the writer alone, and `reply` a `write` system call with its answer.
-/
inductive StdAct where
  | writeBatch (msgs : List Message)
  | run
  | reply (reply : Reply)
  | sync (error : Option Errno)
  deriving DecidableEq

inductive StdOutput where
  | returned (msgs : List Message) (outcome : Outcome)
  | synced (error : Option Errno)
  deriving DecidableEq

namespace StdState

def create (file : File) : StdState := ⟨[], file, [], .idle⟩

/--
What is in the buffer and has not been written. `flush_buf` removes the bytes that it has written
when it ends.
-/
def unwritten (s : StdState) : List UInt8 :=
  match s.pc with
  | .flushing _ _ written => s.buf.drop written
  | _ => s.buf

/--
A message is shorter than the buffer, so the buffer is never bypassed.
-/
def append (s : StdState) (msgs : List Message) (msg : Message) (rest : List Message) : StdState :=
  { s with buf := s.buf ++ msg.toBytes.toList, pc := .writing msgs rest }

def fail (s : StdState) (msgs : List Message) (written : Nat) (error : IoError)
    : StdState × List StdOutput :=
  ({ s with buf := s.buf.drop written, pc := .idle }, [.returned msgs (.err error)])

def flushed (s : StdState) (msgs rest : List Message) : StdState × List StdOutput :=
  let s := { s with buf := [] }
  match rest with
  | [] => ({ s with pc := .idle }, [.returned msgs (.ok msgs.length)])
  | msg :: rest => (s.append msgs msg rest, [])

def answer (s : StdState) (msgs rest : List Message) (written : Nat)
    : Reply → StdState × List StdOutput
  | .transferred n =>
    if n = 0 then
      s.fail msgs written .writeZero
    else
      ({ s with
          file := s.file ++ (s.buf.drop written).take n
          pc := .flushing msgs rest (written + n) }, [])
  | .failed errno =>
    if errno.code = eintr then (s, []) else s.fail msgs written (.os errno)

def step (s : StdState) : StdAct → Option (StdState × List StdOutput)
  | .writeBatch msgs =>
    match s.pc with
    | .idle => some ({ s with pc := .writing msgs msgs }, [])
    | _ => none
  | .run =>
    match s.pc with
    | .idle => none
    | .writing msgs [] => some ({ s with pc := .flushing msgs [] 0 }, [])
    | .writing msgs (msg :: rest) =>
      if stdBufCap - s.buf.length < 64 then
        some ({ s with pc := .flushing msgs (msg :: rest) 0 }, [])
      else
        some (s.append msgs msg rest, [])
    | .flushing msgs rest written =>
      if s.buf.length ≤ written then some (s.flushed msgs rest) else none
  | .reply reply =>
    match s.pc with
    | .flushing msgs rest written =>
      if written < s.buf.length then some (s.answer msgs rest written reply) else none
    | _ => none
  | .sync error =>
    match s.pc with
    | .idle =>
      some (if error.isNone then { s with synced := s.file } else s, [.synced error])
    | _ => none

end StdState

def stdSteps (file : File) : System StdState StdAct StdOutput where
  init := .create file
  step := StdState.step

inductive StdStep (s : StdState) : StdAct → StdState → List StdOutput → Prop where
  | writeBatch {msgs} (hpc : s.pc = .idle)
    : StdStep s (.writeBatch msgs) { s with pc := .writing msgs msgs } []
  | final {msgs} (hpc : s.pc = .writing msgs [])
    : StdStep s .run { s with pc := .flushing msgs [] 0 } []
  | makeRoom {msgs msg rest} (hpc : s.pc = .writing msgs (msg :: rest))
      (hfull : stdBufCap - s.buf.length < 64)
    : StdStep s .run { s with pc := .flushing msgs (msg :: rest) 0 } []
  | append {msgs msg rest} (hpc : s.pc = .writing msgs (msg :: rest))
      (hroom : ¬ stdBufCap - s.buf.length < 64)
    : StdStep s .run (s.append msgs msg rest) []
  | flushed {msgs rest written} (hpc : s.pc = .flushing msgs rest written)
      (hle : s.buf.length ≤ written)
    : StdStep s .run (s.flushed msgs rest).1 (s.flushed msgs rest).2
  | reply {msgs rest written reply} (hpc : s.pc = .flushing msgs rest written)
      (hlt : written < s.buf.length)
    : StdStep s (.reply reply) (s.answer msgs rest written reply).1
        (s.answer msgs rest written reply).2
  | sync {error} (hpc : s.pc = .idle)
    : StdStep s (.sync error) (if error.isNone then { s with synced := s.file } else s)
        [.synced error]

theorem StdStep.of_step {s s' : StdState} {a : StdAct} {es : List StdOutput}
    (hstep : s.step a = some (s', es)) : StdStep s a s' es := by
  cases a with
  | writeBatch msgs =>
    simp only [StdState.step] at hstep
    split at hstep
    . next hpc =>
      simp only [Option.some.injEq, Prod.mk.injEq] at hstep
      rcases hstep with ⟨rfl, rfl⟩
      exact .writeBatch hpc
    . contradiction
  | run =>
    simp only [StdState.step] at hstep
    split at hstep
    . contradiction
    . next hpc =>
      simp only [Option.some.injEq, Prod.mk.injEq] at hstep
      rcases hstep with ⟨rfl, rfl⟩
      exact .final hpc
    . next hpc =>
      split at hstep
      . next hfull =>
        simp only [Option.some.injEq, Prod.mk.injEq] at hstep
        rcases hstep with ⟨rfl, rfl⟩
        exact .makeRoom hpc hfull
      . next hroom =>
        simp only [Option.some.injEq, Prod.mk.injEq] at hstep
        rcases hstep with ⟨rfl, rfl⟩
        exact .append hpc hroom
    . next hpc =>
      split at hstep
      . next hle =>
        have h := StdStep.flushed hpc hle
        rwa [Option.some.inj hstep] at h
      . contradiction
  | reply reply =>
    simp only [StdState.step] at hstep
    split at hstep
    . next hpc =>
      split at hstep
      . next hlt =>
        have h : StdStep s (.reply reply) _ _ := .reply hpc hlt
        rwa [Option.some.inj hstep] at h
      . contradiction
    . contradiction
  | sync error =>
    simp only [StdState.step] at hstep
    split at hstep
    . next hpc =>
      have h : StdStep s (.sync error) _ _ := .sync hpc
      rwa [(Prod.mk.inj (Option.some.inj hstep)).1, (Prod.mk.inj (Option.some.inj hstep)).2] at h
    . contradiction

inductive StdCall where
  | writeBatch (msgs : List Message) (replies : List Reply)
  | sync (error : Option Errno)

def stdCalls (file : File) : System (StdWriter × File × File) StdCall StdOutput where
  init := (.create stdBufCap, file, [])
  step := fun (w, file, synced) call =>
    match call with
    | .writeBatch msgs replies =>
      let ((w, file), outcome) := w.writeBatch file msgs replies
      some ((w, file, synced), [.returned msgs outcome])
    | .sync error => some ((w, file, if error.isNone then file else synced), [.synced error])

end Persist
