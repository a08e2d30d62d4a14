import Cadence.Bench.Impl.PersistVerify
import Cadence.Persist.Impl.Writer

/-!
This module contains the timed runs of the disk benchmarks: one writer on a fresh file, the loop that
hands it the same batch until the wanted number of messages is reached, and the syncs. Every `unwrap`
on an error ends the run in a panic.
-/

open Lts Persist

namespace Bench
namespace Workload

/--
The batch that every call of `write_batch` gets.
-/
def batchMsgs (batchSize : Nat) : List Message :=
  (List.range batchSize).map fun i => Message.new "persist.bench" (Bytes.toLe 8 i)

structure Config where
  kind : Kind
  batchSize : Nat
  syncPerBatch : Bool
  msgCount : Nat

/--
Where the thread is: in front of the test of the loop, in front of the `sync` that follows a batch of
`n` messages, or behind the last `sync`.
-/
inductive Pc where
  | looping
  | syncing (n : Nat)
  | finished
  | panicked
  deriving DecidableEq, Repr

/--
`synced` is the content of the file at the last `sync_data` that succeeded.
-/
structure State where
  log : Writer × File
  synced : File
  total : Nat
  pc : Pc

inductive Act where
  | writeBatch (env : Env)
  | sync (error : Option Errno)

inductive Output where
  | wrote (env : Env) (outcome : Outcome)
  | synced (error : Option Errno)
  deriving DecidableEq

namespace State

variable (c : Config)

def init : State where
  log := (.create c.kind, [])
  synced := []
  total := 0
  pc := .looping

def wrote (s : State) (env : Env) : (Writer × File) × Outcome → State × List Output
  | (log, .ok n) =>
    if c.syncPerBatch then
      ({ s with log := log, pc := .syncing n }, [.wrote env (.ok n)])
    else
      ({ s with log := log, total := s.total + n }, [.wrote env (.ok n)])
  | (log, outcome) => ({ s with log := log, pc := .panicked }, [.wrote env outcome])

def sync (s : State) (n : Nat) (pc : Pc) : Option Errno → State × List Output
  | none => ({ s with synced := s.log.2, total := s.total + n, pc := pc }, [.synced none])
  | some errno => ({ s with pc := .panicked }, [.synced (some errno)])

def step (s : State) : Act → Option (State × List Output)
  | .writeBatch env =>
    match s.pc with
    | .looping =>
      if s.total < c.msgCount then
        some (s.wrote c env (Writer.writeBatch s.log (batchMsgs c.batchSize) env))
      else
        none
    | _ => none
  | .sync error =>
    match s.pc with
    | .looping => if s.total < c.msgCount then none else some (s.sync 0 .finished error)
    | .syncing n => some (s.sync n .looping error)
    | _ => none

end State

def workload (c : Config) : System State Act Output where
  init := .init c
  step := State.step c

end Workload

namespace PersistVerify

def maxBatch : Nat := 4096

/--
`build_writer`, as the arguments of the three `create`.
-/
def buildWriter (kind : WriterKind) (batchSize : Nat) : Kind :=
  match kind with
  | .stdBufWriter => .std stdBufCap
  | .ioUringWrite => .uring (max (min batchSize 512) 1) (Nat.le_max_right _ 1)
  | .ioUringWriteFixed => .fixed maxBatch (by decide) (by decide)

def timeWriter (kind : WriterKind) (batchSize : Nat) (dur : Durability) (msgCount : Nat)
    : System Workload.State Workload.Act Workload.Output :=
  Workload.workload ⟨buildWriter kind batchSize, batchSize, dur = .syncPerBatch, msgCount⟩

/--
What `time_writer` returns after `secs` seconds, in Mmsg/s and in MB/s. Its `f64` numbers are read as
exact rationals.
-/
def speeds (total : Nat) (secs : ℚ) : ℚ × ℚ :=
  (total / secs / 1000000, total * 64 / secs / (1024 * 1024))

end PersistVerify

namespace PersistBench

def msgCount : Nat := 500000

/--
`bench_writer` and the `create` in front of it, for the two writers of `main`. An `IoUring` of depth
0 cannot be created.
-/
def benchWriter (uring : Bool) (batchSize : Nat) (h : 0 < batchSize)
    : System Workload.State Workload.Act Workload.Output :=
  Workload.workload
    { kind :=
        if uring then .uring (min batchSize 512) (Nat.lt_min.mpr ⟨h, by decide⟩)
        else .std stdBufCap
      batchSize := batchSize
      syncPerBatch := false
      msgCount := msgCount }

end PersistBench
end Bench
