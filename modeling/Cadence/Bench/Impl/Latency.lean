import Cadence.Bench.Impl.Crossbeam
import Cadence.Bench.Impl.Shutdown
import Cadence.Bench.Impl.TailBench
import Cadence.OpenLoop.Basic

/-!
This module contains the latency runs: the publisher waits until the next message is due, and the
subscriber reads the clock for every message and takes the time since it was due. A histogram is the
list of the calls of `record_correct(value, interval)` made on it, and the clock counts the
nanoseconds since `epoch`.
-/

open Lts OpenLoop Spsc

namespace Bench

/--
`u64::from_le_bytes(msg.payload[..8].try_into().unwrap())`.
-/
def intendedOf (msg : Message) : UInt64 :=
  UInt64.ofNat (Bytes.ofLe (msg.payload.toList.take 8))

def intended (start interval : UInt64) (i : Nat) : UInt64 :=
  start + i.toUInt64 * interval

def lat (now intended : UInt64) : UInt64 :=
  max (TailBench.saturatingSub now intended) 1

def latencyPlan (start interval : UInt64) (warmup : Nat) : Plan Message UInt64 where
  start := start
  due := intended start interval
  key := intendedOf
  sample := lat
  interval := interval
  warmup := warmup

variable {w : Nat}

def spscLink (L : Layout w) (strategy : WaitStrategy) (messages : List Message)
    : Link (Bench.State L Message) Thread (Spsc.Output Message) Message where
  system := shutdown L strategy messages
  role
    | .producer => .sender
    | .consumer => .receiver
    | .main => .other
  more s := !s.sender.values.isEmpty
  sent
    | .sent _ => true
    | _ => false
  received?
    | .received (.init msg) => some msg
    | _ => none

/--
The threads of `spsc_latency` and `spsc_trial`. The first reading of the clock in the publisher is
`start`, and `now` is the time at which the threads are spawned.
-/
def spscRun (L : Layout w) (strategy : WaitStrategy) (start interval : UInt64)
    (warmup msgs : Nat) (now : UInt64)
    : System (OpenLoop.State (State L Message) Message UInt64) (OpenLoop.Act Thread UInt64)
        (Spsc.Output Message) :=
  measurement (spscLink L strategy (latMessages start interval (msgs + warmup)))
    (latencyPlan start interval warmup) now

def crossbeamLink (capacity : Nat) (messages : List Message)
    : Link (Crossbeam.State capacity) Crossbeam.Act Crossbeam.Output Message where
  system := Crossbeam.crossbeam capacity messages
  role
    | .publisher _ => .sender
    | .subscriber => .receiver
    | .main => .other
  more s := !s.messages.isEmpty
  sent
    | .bus (.offered ..) => true
    | _ => false
  received?
    | .received msg => some msg
    | .bus _ => none

/--
The threads of `crossbeam_latency`.
-/
def crossbeamRun (capacity : Nat) (start interval : UInt64) (warmup msgs : Nat) (now : UInt64)
    : System (OpenLoop.State (Crossbeam.State capacity) Message UInt64)
        (OpenLoop.Act Crossbeam.Act UInt64) Crossbeam.Output :=
  measurement (crossbeamLink capacity (latMessages start interval (msgs + warmup)))
    (latencyPlan start interval warmup) now

namespace Main

def spscLatencyRun (start now : UInt64)
    : System (OpenLoop.State (Bench.State layout Message) Message UInt64) (OpenLoop.Act Thread UInt64)
        (Spsc.Output Message) :=
  spscRun layout .yield start latInterval latWarmup latMsgs now

def crossbeamLatencyRun (start now : UInt64)
    : System (OpenLoop.State (Crossbeam.State layout.capacity) Message UInt64)
        (OpenLoop.Act Crossbeam.Act UInt64) Crossbeam.Output :=
  crossbeamRun layout.capacity start latInterval latWarmup latMsgs now

end Main

/--
The threads of `spsc_trial`, at a rate that does not make the division panic.
-/
def Tail.spscTrialRun (rateHz : UInt64) (wait : WaitStrategy) (start now : UInt64)
    : System (OpenLoop.State (Bench.State layout Message) Message UInt64) (OpenLoop.Act Thread UInt64)
        (Spsc.Output Message) :=
  spscRun layout wait start (1000000000 / rateHz) latWarmup latMsgs now

end Bench
