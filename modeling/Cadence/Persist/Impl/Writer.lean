import Mathlib.Data.Nat.Log
import Cadence.Lts.Basic
import Cadence.Message.Lemmas.Bytes
import Cadence.Persist.Impl.Ring

/-!
This module contains the three writers of the log.
-/

open Lts

namespace Persist

inductive IoError where
  | os (errno : Errno)
  | writeZero
  deriving DecidableEq, Repr

inductive Outcome where
  | ok (n : Nat)
  | err (error : IoError)
  | panicked
  deriving DecidableEq, Repr

/--
The behaviour of the operating system in one call: its answers to the `write` system calls of
`StdWriter`, and what it does with each chunk of the io_uring writers. Where a list ends, everything
is transferred.
-/
structure Env where
  writes : List Reply
  chunks : List ChunkEnv
  deriving DecidableEq, Repr

/--
`slice::chunks(size)`.
-/
def chunks {α : Type} (size : Nat) (hsize : 0 < size) (l : List α) : List (List α) :=
  if l = [] then
    []
  else
    l.take size :: chunks size hsize (l.drop size)
termination_by l.length
decreasing_by
  have := List.length_pos_iff.mpr ‹l ≠ []›
  rw [List.length_drop]
  omega

def eintr : Nat := 4

/--
The loop of `BufWriter::flush_buf` and of `Write::write_all` on a file opened for appending: what is
left of `data` at the end, the unused answers, and the error.
-/
def writeLoop (file : File) (data : List UInt8)
    : List Reply → File × List UInt8 × List Reply × Option IoError
  | [] => (file ++ data, [], [], none)
  | reply :: replies =>
    if data = [] then
      (file, [], reply :: replies, none)
    else
      match reply with
      | .transferred n =>
        if n = 0 then
          (file, data, replies, some .writeZero)
        else
          writeLoop (file ++ data.take n) (data.drop n) replies
      | .failed errno =>
        if errno.code = eintr then
          writeLoop file data replies
        else
          (file, data, replies, some (.os errno))

structure StdWriter where
  capacity : Nat
  buf : List UInt8
  deriving DecidableEq, Repr

def stdBufCap : Nat := 512 * 1024

namespace StdWriter

def create (bufCap : Nat) : StdWriter := ⟨bufCap, []⟩

def flushBuf (w : StdWriter) (file : File) (replies : List Reply)
    : StdWriter × File × List Reply × Option IoError :=
  let (file, rest, replies, error) := writeLoop file w.buf replies
  ({ w with buf := rest }, file, replies, error)

def makeRoom (w : StdWriter) (file : File) (data : List UInt8) (replies : List Reply)
    : StdWriter × File × List Reply × Option IoError :=
  if w.capacity - w.buf.length < data.length then
    w.flushBuf file replies
  else
    (w, file, replies, none)

def writeAllCold (w : StdWriter) (file : File) (data : List UInt8) (replies : List Reply)
    : StdWriter × File × List Reply × Option IoError :=
  match w.makeRoom file data replies with
  | (w, file, replies, some error) => (w, file, replies, some error)
  | (w, file, replies, none) =>
    if w.capacity ≤ data.length then
      -- the buffer is bypassed
      let (file, _, replies, error) := writeLoop file data replies
      (w, file, replies, error)
    else
      ({ w with buf := w.buf ++ data }, file, replies, none)

def writeAll (w : StdWriter) (file : File) (data : List UInt8) (replies : List Reply)
    : StdWriter × File × List Reply × Option IoError :=
  if data.length < w.capacity - w.buf.length then
    ({ w with buf := w.buf ++ data }, file, replies, none)
  else
    w.writeAllCold file data replies

def writeMsgs (w : StdWriter) (file : File)
    : List Message → List Reply → StdWriter × File × List Reply × Option IoError
  | [], replies => (w, file, replies, none)
  | msg :: msgs, replies =>
    match w.writeAll file msg.toBytes.toList replies with
    | (w, file, replies, none) => w.writeMsgs file msgs replies
    | result => result

def writeBatch (w : StdWriter) (file : File) (msgs : List Message) (replies : List Reply)
    : (StdWriter × File) × Outcome :=
  match w.writeMsgs file msgs replies with
  | (w, file, _, some error) => ((w, file), .err error)
  | (w, file, replies, none) =>
    match w.flushBuf file replies with
    | (w, file, _, some error) => ((w, file), .err error)
    | (w, file, _, none) => ((w, file), .ok msgs.length)

def drop (w : StdWriter) (file : File) (replies : List Reply) : File :=
  -- errors of the last flush are ignored
  (w.flushBuf file replies).2.1

end StdWriter

/--
The loop over the chunks that both io_uring writers have.
-/
def writeChunks {ω : Type}
    (writeChunk : ChunkEnv → ω × File → List Message → (ω × File) × Round)
    : List (List Message) → List ChunkEnv → Nat → ω × File → (ω × File) × Outcome
  | [], _, written, state => (state, .ok written)
  | chunk :: chunks, envs, written, state =>
    match writeChunk (envs.headD .default) state chunk with
    | (state, .done) => writeChunks writeChunk chunks envs.tail (written + chunk.length) state
    | (state, .err errno) => (state, .err (.os errno))
    | (state, .panicked) => (state, .panicked)

/--
File offsets stay far below `2 ^ 64`, so `offset` is a natural number.
-/
structure UringWriter where
  entries : Nat
  ring : Ring
  offset : Nat
  ringDepth : Nat
  depth_pos : 0 < ringDepth
  depth_le : ringDepth ≤ entries

namespace UringWriter

/--
The kernel rounds the depth up to a power of two.
-/
def create (ringDepth : Nat) (h : 0 < ringDepth) : UringWriter where
  entries := 2 ^ Nat.clog 2 ringDepth
  ring := .new
  offset := 0
  ringDepth := ringDepth
  depth_pos := h
  depth_le := Nat.le_pow_clog (by decide) ringDepth

def sqes (offset : Nat) (chunk : List Message) : List Sqe :=
  chunk.mapIdx fun i m => ⟨offset + i * 64, 64, .owned m.toBytes.toList⟩

def writeChunk (env : ChunkEnv) (state : UringWriter × File) (chunk : List Message)
    : (UringWriter × File) × Round :=
  let (w, file) := state
  let mem : Memory := ⟨[], env.freed⟩
  match Ring.round w.entries mem (sqes w.offset chunk) chunk.length env (w.ring, file) with
  | ((ring, file), .done) =>
    (({ w with ring := ring, offset := w.offset + chunk.length * 64 }, file), .done)
  | ((ring, file), result) => (({ w with ring := ring }, file), result)

def writeBatch (w : UringWriter) (file : File) (msgs : List Message) (envs : List ChunkEnv)
    : (UringWriter × File) × Outcome :=
  writeChunks writeChunk (chunks w.ringDepth w.depth_pos msgs) envs 0 (w, file)

end UringWriter

/--
`self.buf[i * 64..(i + 1) * 64].copy_from_slice(&m.to_bytes())` for every message of the chunk.
-/
def pack (buf : List UInt8) (chunk : List Message) : List UInt8 :=
  File.pwriteAll buf (chunk.mapIdx fun i m => (i * 64, m.toBytes.toList))

theorem length_pack {buf : List UInt8} {chunk : List Message} (h : chunk.length * 64 ≤ buf.length)
    : (pack buf chunk).length = buf.length := by
  unfold pack
  apply File.length_pwriteAll
  intro write hwrite
  rcases List.mem_mapIdx.mp hwrite with ⟨i, hi, rfl⟩
  rw [Message.length_toBytes]
  omega

/--
`IoUring::new(8)`, and a registered buffer, which the kernel limits to 1 GiB.
-/
structure UringFixedWriter where
  ring : Ring
  offset : Nat
  buf : List UInt8
  capMsgs : Nat
  cap_pos : 0 < capMsgs
  buf_length : buf.length = capMsgs * 64
  buf_le : capMsgs * 64 ≤ 2 ^ 30

namespace UringFixedWriter

def create (capMsgs : Nat) (hpos : 0 < capMsgs) (hle : capMsgs * 64 ≤ 2 ^ 30)
    : UringFixedWriter where
  ring := .new
  offset := 0
  buf := List.replicate (capMsgs * 64) 0
  capMsgs := capMsgs
  cap_pos := hpos
  buf_length := List.length_replicate
  buf_le := hle

/--
`(chunk.len() * 64) as u32`.
-/
def len (chunk : List Message) : Nat :=
  (chunk.length * 64) % 2 ^ 32

/--
A chunk that is longer than the buffer would panic in `copy_from_slice`.
-/
def writeChunk (env : ChunkEnv) (state : UringFixedWriter × File) (chunk : List Message)
    : (UringFixedWriter × File) × Round :=
  let (w, file) := state
  if h : chunk.length * 64 ≤ w.buf.length then
    let w := { w with buf := pack w.buf chunk, buf_length := (length_pack h).trans w.buf_length }
    let sqe : Sqe := ⟨w.offset, len chunk, .registered⟩
    match Ring.round 8 ⟨w.buf, env.freed⟩ [sqe] 1 env (w.ring, file) with
    | ((ring, file), .done) =>
      (({ w with ring := ring, offset := w.offset + len chunk }, file), .done)
    | ((ring, file), result) => (({ w with ring := ring }, file), result)
  else
    (state, .panicked)

def writeBatch (w : UringFixedWriter) (file : File) (msgs : List Message) (envs : List ChunkEnv)
    : (UringFixedWriter × File) × Outcome :=
  writeChunks writeChunk (chunks w.capMsgs w.cap_pos msgs) envs 0 (w, file)

end UringFixedWriter

inductive Writer where
  | std (w : StdWriter)
  | uring (w : UringWriter)
  | fixed (w : UringFixedWriter)

/--
The arguments of `create`. `StdWriter` is used with the capacity `stdBufCap`.
-/
inductive Kind where
  | std (bufCap : Nat)
  | uring (ringDepth : Nat) (h : 0 < ringDepth)
  | fixed (capMsgs : Nat) (hpos : 0 < capMsgs) (hle : capMsgs * 64 ≤ 2 ^ 30)

namespace Writer

def create : Kind → Writer
  | .std bufCap => .std (.create bufCap)
  | .uring ringDepth h => .uring (.create ringDepth h)
  | .fixed capMsgs hpos hle => .fixed (.create capMsgs hpos hle)

def writeBatch (state : Writer × File) (msgs : List Message) (env : Env)
    : (Writer × File) × Outcome :=
  match state with
  | (.std w, file) =>
    let ((w, file), outcome) := w.writeBatch file msgs env.writes
    ((.std w, file), outcome)
  | (.uring w, file) =>
    let ((w, file), outcome) := w.writeBatch file msgs env.chunks
    ((.uring w, file), outcome)
  | (.fixed w, file) =>
    let ((w, file), outcome) := w.writeBatch file msgs env.chunks
    ((.fixed w, file), outcome)

def drop (state : Writer × File) (replies : List Reply) : File :=
  match state with
  | (.std w, file) => w.drop file replies
  | (_, file) => file

end Writer

abbrev Call := List Message × Env

def log (kind : Kind) (file : File) : System (Writer × File) Call (Call × Outcome) where
  init := (.create kind, file)
  step := fun state call =>
    let (state, outcome) := Writer.writeBatch state call.1 call.2
    some (state, [(call, outcome)])

/--
A session on the log file: a writer is created, writes batches and is dropped.
-/
structure Session where
  kind : Kind
  calls : List Call
  dropWrites : List Reply

def Session.run (file : File) (session : Session) : File :=
  let state := session.calls.foldl
    (fun state call => (Writer.writeBatch state call.1 call.2).1) (.create session.kind, file)
  Writer.drop state session.dropWrites

end Persist
