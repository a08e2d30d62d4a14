import Cadence.File.Basic

/-!
This module contains the io_uring of a writer as it shares it with the kernel: pushing operations,
`submit_and_wait`, and draining the completions.
-/

namespace Persist

structure Errno where
  code : Nat
  pos : 0 < code
  deriving DecidableEq, Repr

inductive Reply where
  | transferred (n : Nat)
  | failed (errno : Errno)
  deriving DecidableEq, Repr

/--
Where the kernel finds the bytes of an operation when it executes it: in a buffer of the call that
queued the operation, in the registered buffer, or in memory that has been freed since.
-/
inductive Source where
  | owned (data : List UInt8)
  | registered
  | freed
  deriving DecidableEq, Repr

structure Memory where
  registered : List UInt8
  freed : List UInt8

def Source.bytes (mem : Memory) : Source → List UInt8
  | .owned data => data
  | .registered => mem.registered
  | .freed => mem.freed

def Source.release : Source → Source
  | .owned _ => .freed
  | source => source

structure Sqe where
  offset : Nat
  len : Nat
  source : Source
  deriving DecidableEq, Repr

def Sqe.release (sqe : Sqe) : Sqe :=
  { sqe with source := sqe.source.release }

structure Flight where
  sqe : Sqe
  reply : Reply
  deriving DecidableEq, Repr

namespace Flight

def release (flight : Flight) : Flight :=
  { flight with sqe := flight.sqe.release }

def written (mem : Memory) (flight : Flight) : List UInt8 :=
  match flight.reply with
  | .transferred n => ((flight.sqe.source.bytes mem).take flight.sqe.len).take n
  | .failed _ => []

def result (flight : Flight) : Int :=
  match flight.reply with
  | .transferred n => (min n flight.sqe.len : Nat)
  | .failed errno => -(errno.code : Int)

end Flight

/--
`sq` holds what has been pushed and not been taken by the kernel. What it has taken is in flight
until its completion is posted to `cq`, where it stays until it is read.
-/
structure Ring where
  sq : List Sqe
  submitted : List Flight
  executed : List Flight
  cq : List Int
  deriving DecidableEq, Repr

inductive Submit where
  | all
  | leaves (n : Nat) (pos : 0 < n)
  | fails (errno : Errno)
  deriving DecidableEq, Repr

/--
What the kernel does in one `submit_and_wait`: how much of the queue it takes, its answers to what
it takes (complete transfers where `replies` ends), and which of the operations in flight it
executes and then posts, each number counting modulo those that are left.
-/
structure ChunkEnv where
  submit : Submit
  replies : List Reply
  execs : List Nat
  posts : List Nat
  freed : List UInt8
  deriving DecidableEq, Repr

def ChunkEnv.default : ChunkEnv := ⟨.all, [], [], [], []⟩

def flights : List Reply → List Sqe → List Flight
  | _, [] => []
  | replies, sqe :: sqes =>
    ⟨sqe, replies.headD (.transferred sqe.len)⟩ :: flights replies.tail sqes

def pick {α : Type} (k : Nat) (l : List α) : Option (α × List α) :=
  l[k % l.length]?.map fun a => (a, l.eraseIdx (k % l.length))

inductive Round where
  | done
  | err (errno : Errno)
  | panicked
  deriving DecidableEq, Repr

/--
The loop over the completions: it stops at the first negative result and leaves the rest unread.
-/
def drain : List Int → Option Errno × List Int
  | [] => (none, [])
  | ret :: rest =>
    if h : ret < 0 then
      (some ⟨(-ret).toNat, by omega⟩, rest)
    else
      drain rest

namespace Ring

def new : Ring := ⟨[], [], [], []⟩

def push (entries : Nat) (ring : Ring) (sqe : Sqe) : Option Ring :=
  if ring.sq.length < entries then
    some { ring with sq := ring.sq ++ [sqe] }
  else
    none

/--
Pushes until one push fails, which is the panic of `expect("ring submission full")`.
-/
def pushAll (entries : Nat) (ring : Ring) : List Sqe → Ring × Bool
  | [] => (ring, true)
  | sqe :: sqes =>
    match ring.push entries sqe with
    | some ring => ring.pushAll entries sqes
    | none => (ring, false)

def exec (mem : Memory) (state : Ring × File) (k : Nat) : Ring × File :=
  match pick k state.1.submitted with
  | some (flight, rest) =>
    ({ state.1 with submitted := rest, executed := state.1.executed ++ [flight] },
      state.2.pwrite flight.sqe.offset (flight.written mem))
  | none => state

def post (ring : Ring) (k : Nat) : Ring :=
  match pick k ring.executed with
  | some (flight, rest) => { ring with executed := rest, cq := ring.cq ++ [flight.result] }
  | none => ring

def take (ring : Ring) (n : Nat) (replies : List Reply) : Ring :=
  { ring with
    sq := ring.sq.drop n
    submitted := ring.submitted ++ flights replies (ring.sq.take n) }

def complete (mem : Memory) (state : Ring × File) : Ring × File :=
  let state := if state.1.executed = [] then exec mem state 0 else state
  (state.1.post 0, state.2)

def completes (mem : Memory) : Nat → Ring × File → Ring × File
  | 0, state => state
  | n + 1, state => completes mem n (complete mem state)

/--
Returns as soon as `want` completions are unread, whichever operations they belong to.
-/
def wait (mem : Memory) (want : Nat) (state : Ring × File) : Ring × File :=
  completes mem (want - state.1.cq.length) state

def submitAndWait (mem : Memory) (want : Nat) (env : ChunkEnv) (state : Ring × File)
    : (Ring × File) × Option Errno :=
  let taken :=
    match env.submit with
    | .all => state.1.sq.length
    | .leaves n _ => state.1.sq.length - n
    | .fails _ => 0
  let (ring, file) := env.execs.foldl (exec mem) (state.1.take taken env.replies, state.2)
  let ring := env.posts.foldl post ring
  match env.submit with
  | .fails errno => ((ring, file), some errno)
  | _ =>
    -- the kernel waits only if it has taken the whole queue
    if ring.sq = [] then (wait mem want (ring, file), none) else ((ring, file), none)

def release (ring : Ring) : Ring :=
  { ring with sq := ring.sq.map Sqe.release, submitted := ring.submitted.map Flight.release }

def round (entries : Nat) (mem : Memory) (sqes : List Sqe) (want : Nat) (env : ChunkEnv)
    (state : Ring × File) : (Ring × File) × Round :=
  match state.1.pushAll entries sqes with
  | (ring, false) => ((ring.release, state.2), .panicked)
  | (ring, true) =>
    match submitAndWait mem want env (ring, state.2) with
    | ((ring, file), some errno) => ((ring.release, file), .err errno)
    | ((ring, file), none) =>
      match drain ring.cq with
      | (some errno, cq) => (({ ring with cq := cq }.release, file), .err errno)
      | (none, cq) => (({ ring with cq := cq }.release, file), .done)

end Ring
end Persist
